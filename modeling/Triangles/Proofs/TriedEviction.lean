import Triangles.Lib.Draw
import Triangles.Proofs.AddrMan

/-! Eviction from a tried bucket: `SelectTried` remembers where an entry stood before the swap that
brings it to the front. -/

namespace Triangles

open Shuffle

namespace CAddrMan

def triedPlace (chance : Chance) (n i : Nat) : Nat := chance.getRandInt (i + 1) (n - i) + i

def inspected (vTried : List Nat) : Nat := min ADDRMAN_TRIED_ENTRIES_INSPECT_ON_EVICT vTried.length

/-- The bucket is only reordered, and the position is that of an oldest inspected entry. -/
def SelectsOldest (s : CAddrMan) (chance : Chance) (vTried : List Nat) : Prop :=
  let (shuffled, nPos) := s.selectTried chance vTried
  shuffled.Perm vTried ∧ nPos < inspected vTried ∧
    ∀ j < inspected vTried, s.lastSuccess (shuffled.getD nPos 0) ≤ s.lastSuccess (shuffled.getD j 0)

def drawnTried (chance : Chance) (vTried : List Nat) : List Nat :=
  drawn 0 (triedPlace chance vTried.length) (inspected vTried) 0 vTried

/-- In the first round that draws an oldest entry the place drawn is one of the front, and what is
drawn in the round of that number is as old. -/
def OldestStays (s : CAddrMan) (chance : Chance) (vTried : List Nat) : Prop :=
  ∃ m, FirstLeast (fun j => s.lastSuccess ((drawnTried chance vTried).getD j 0)) (inspected vTried) m ∧
    triedPlace chance vTried.length m < inspected vTried ∧
    s.lastSuccess ((drawnTried chance vTried).getD (triedPlace chance vTried.length m) 0) =
      s.lastSuccess ((drawnTried chance vTried).getD m 0)

variable (s : CAddrMan) (chance : Chance) (vTried : List Nat)

theorem triedPlace_lt {i : Nat} (hi : i < vTried.length) :
    triedPlace chance vTried.length i < vTried.length := by
  have hmod := Nat.mod_lt (chance.draw (i + 1)) (Nat.sub_pos_of_lt hi)
  rw [triedPlace, Chance.getRandInt]
  omega

theorem le_triedPlace (n i : Nat) : i ≤ triedPlace chance n i := Nat.le_add_left _ _

/-- What the loop has after some rounds: the shuffled bucket, and of the first oldest entry the
place it was drawn from. -/
def RoundsDone (pos : Nat → Nat) (r : Nat) (acc : List Nat × Option Nat × Nat) : Prop :=
  acc.1 = rounds 0 pos vTried r ∧
    (r = 0 ∧ acc.2 = (none, 0) ∨
      ∃ m, FirstLeast (fun j => s.lastSuccess (acc.1.getD j 0)) r m ∧
        acc.2 = (some (acc.1.getD m 0), pos m))

theorem RoundsDone.round {r : Nat} {acc : List Nat × Option Nat × Nat} (hr : r < vTried.length)
    (h : RoundsDone s vTried (triedPlace chance vTried.length) r acc) :
    RoundsDone s vTried (triedPlace chance vTried.length) (r + 1)
      (s.selectTriedRound chance acc r) := by
  obtain ⟨l, nOldest, nOldestPos⟩ := acc
  obtain ⟨rfl, hbest⟩ := h
  have hlt := triedPlace_lt chance vTried hr
  have hpos : ∀ i, i ≤ triedPlace chance vTried.length i := le_triedPlace chance _
  generalize hdef : triedPlace chance vTried.length = pos at *
  have hlen : (rounds 0 pos vTried r).length = vTried.length := rounds_length r
  have hdraw : chance.getRandInt (r + 1) ((rounds 0 pos vTried r).length - r) + r = pos r := by
    rw [hlen, ← hdef]
    rfl
  -- the entry drawn stands at place `r` from now on
  have htemp : (rounds 0 pos vTried (r + 1)).getD r 0 = (rounds 0 pos vTried r).getD (pos r) 0 := by
    rw [rounds, bring, List.getD_eq_getElem?_getD, List.getElem?_set_self (by simp [hr])]
    rfl
  have hstay : ∀ j < r, (rounds 0 pos vTried r).getD j 0 = (rounds 0 pos vTried (r + 1)).getD j 0 :=
    fun j hj => (rounds_getD hpos hj).symm
  obtain ⟨rfl, hnone⟩ | ⟨m, hm, hsome⟩ := hbest
  · obtain ⟨rfl, rfl⟩ := Prod.mk.inj hnone
    have hround : s.selectTriedRound chance (rounds 0 pos vTried 0, none, 0) 0 =
        (rounds 0 pos vTried 1, some ((rounds 0 pos vTried 1).getD 0 0), pos 0) := by
      unfold selectTriedRound
      dsimp only
      rw [hdraw, htemp]
      rfl
    rw [hround]
    exact ⟨rfl, .inr ⟨0, .one, rfl⟩⟩
  · dsimp only at hm hsome
    obtain ⟨rfl, rfl⟩ := Prod.mk.inj hsome
    have hm' : FirstLeast (fun j => s.lastSuccess ((rounds 0 pos vTried (r + 1)).getD j 0)) r m :=
      hm.congr fun j hj => congrArg s.lastSuccess (hstay j hj)
    have hround : s.selectTriedRound chance (rounds 0 pos vTried r,
        some ((rounds 0 pos vTried r).getD m 0), pos m) r =
        if s.lastSuccess ((rounds 0 pos vTried (r + 1)).getD r 0) <
            s.lastSuccess ((rounds 0 pos vTried (r + 1)).getD m 0) then
          (rounds 0 pos vTried (r + 1), some ((rounds 0 pos vTried (r + 1)).getD r 0), pos r)
        else (rounds 0 pos vTried (r + 1), some ((rounds 0 pos vTried (r + 1)).getD m 0), pos m) := by
      unfold selectTriedRound
      dsimp only
      rw [hdraw, htemp, hstay m hm.lt]
      rfl
    rw [hround]
    split_ifs with hless
    · exact ⟨rfl, .inr ⟨r, hm'.next hless, rfl⟩⟩
    · exact ⟨rfl, .inr ⟨m, hm'.keep hless, rfl⟩⟩

/-- A run of rounds. -/
theorem roundsDone_foldl {r : Nat} (hr : r ≤ vTried.length) :
    RoundsDone s vTried (triedPlace chance vTried.length) r
      ((List.range r).foldl (s.selectTriedRound chance) (vTried, none, 0)) := by
  induction r with
  | zero => exact ⟨rfl, .inl ⟨rfl, rfl⟩⟩
  | succ r ih =>
    rw [List.range_succ, List.foldl_append]
    exact (ih (Nat.le_of_succ_le hr)).round s chance vTried hr

theorem drawnTried_getD {j : Nat} (hj : j < inspected vTried) :
    (rounds 0 (triedPlace chance vTried.length) vTried (inspected vTried)).getD j 0 =
      (drawnTried chance vTried).getD j 0 := by
  have hle : inspected vTried ≤ vTried.length := min_le_right _ _
  rw [drawnTried, ← rounds_drawn (fun i => le_triedPlace chance _ i) hle,
    List.getD_eq_getElem?_getD, List.getD_eq_getElem?_getD, List.getElem?_take_of_lt hj]

/-- `SelectTried` returns the place of an oldest entry just when that entry was not moved away by
the swaps, or when what took its place is as old. -/
theorem selectTried_oldest_iff (s : CAddrMan) (chance : Chance) (vTried : List Nat) :
    SelectsOldest s chance vTried ↔ OldestStays s chance vTried := by
  have hle : inspected vTried ≤ vTried.length := min_le_right _ _
  have hperm : (rounds 0 (triedPlace chance vTried.length) vTried (inspected vTried)).Perm vTried :=
    rounds_perm (fun i hi => triedPlace_lt chance vTried (hi.trans_le hle)) hle
  obtain ⟨hshuffled, hbest⟩ := roundsDone_foldl s chance vTried hle
  rw [SelectsOldest, OldestStays, selectTried, ← inspected]
  generalize (List.range (inspected vTried)).foldl (s.selectTriedRound chance) (vTried, none, 0) = acc
    at hshuffled hbest ⊢
  obtain ⟨shuffled, nOldest, nPos⟩ := acc
  dsimp only at hshuffled hbest ⊢
  subst hshuffled
  obtain ⟨hzero, -⟩ | ⟨m, hm, hsome⟩ := hbest
  · -- nothing to select
    rw [hzero]
    constructor
    · rintro ⟨-, hlt, -⟩
      exact absurd hlt (Nat.not_lt_zero _)
    · rintro ⟨m, hm, -⟩
      exact absurd hm.lt (Nat.not_lt_zero _)
  · obtain ⟨-, rfl⟩ := Prod.mk.inj hsome
    have hfirst := hm.congr fun j hj =>
      congrArg s.lastSuccess (drawnTried_getD chance vTried hj)
    constructor
    · rintro ⟨-, hlt, hleast⟩
      refine ⟨m, hfirst, hlt, ?_⟩
      rw [← drawnTried_getD chance vTried hlt, ← drawnTried_getD chance vTried hm.lt]
      exact le_antisymm (hleast m hm.lt) (hm.least _ hlt)
    · rintro ⟨m', hm', hlt, hage⟩
      obtain rfl := hfirst.unique hm'
      refine ⟨hperm, hlt, fun j hj => ?_⟩
      rw [drawnTried_getD chance vTried hlt, drawnTried_getD chance vTried hj, hage]
      exact hfirst.least j hj

def triedEntry (n : Nat) : CAddrInfo :=
  { ip := [10, 0, 0, UInt8.ofNat n], port := 24112, nTime := 1600000000, source := ⟨[10, 0, 0, 1]⟩,
    nLastSuccess := if n = 5 then 1600000000 else 1600001000, fInTried := true, nRandomPos := n }

def fullBucket : Fin ADDRMAN_TRIED_BUCKET_COUNT := ⟨7, by decide⟩

def fullTried : CAddrMan where
  nIdCount := 64
  mapInfo := (List.range 64).foldl (fun m n => m.insert n (triedEntry n)) ∅
  mapAddr := (List.range 64).foldl (fun m n => m.insert (triedEntry n).toCNetAddr n) ∅
  vRandom := List.range 64
  nTried := 64
  vvTried := Function.update (fun _ => []) fullBucket (List.range 64)

def drawFive : Chance := { draw := fun _ => 5, accept := fun _ => true, nNow := 1600002000 }

/-- Place 5 is returned, where the entry with id 0 stands since the first round. -/
theorem selectTried_fullTried :
    (fullTried.selectTried drawFive (fullTried.vvTried fullBucket)).2 = 5 ∧
    (fullTried.selectTried drawFive (fullTried.vvTried fullBucket)).1.getD 5 0 = 0 ∧
    fullTried.lastSuccess 5 < fullTried.lastSuccess 0 ∧
    ¬ SelectsOldest fullTried drawFive (fullTried.vvTried fullBucket) := by
  have hplace : (fullTried.selectTried drawFive (fullTried.vvTried fullBucket)).2 = 5 := by decide
  refine ⟨hplace, by decide, by decide, ?_⟩
  rintro ⟨-, hlt, -⟩
  have hlt' : (fullTried.selectTried drawFive (fullTried.vvTried fullBucket)).2 < 4 := hlt
  rw [hplace] at hlt'
  exact absurd hlt' (by decide)

end CAddrMan

end Triangles
