import Mathlib.Data.Finset.Sort
import Mathlib.Data.List.Lex
import Mathlib.Data.UInt

/-! A set of the inputs a test has passed, kept near a capacity by evicting entries at keys drawn
from outside. -/

namespace Triangles

/-- Bytes in their order, for sets of keys made of byte strings. -/
scoped instance ByteOrder.instLinearOrderUInt8 : LinearOrder UInt8 where
  le_refl := UInt8.le_refl
  le_trans _ _ _ := UInt8.le_trans
  le_antisymm _ _ := UInt8.le_antisymm
  le_total := UInt8.le_total
  lt_iff_le_not_ge _ _ := UInt8.lt_iff_le_and_ne.trans
    ⟨fun h => ⟨h.1, fun hge => h.2 (UInt8.le_antisymm h.1 hge)⟩,
      fun h => ⟨h.1, fun he => h.2 (he ▸ UInt8.le_refl _)⟩⟩
  toDecidableLE := inferInstance
  toDecidableEq := inferInstance
  toDecidableLT := inferInstance

section Memo

variable {α : Type*} [LinearOrder α]

def lowerBound (s : Finset α) (key : α) : Option α :=
  (s.sort (· ≤ ·)).find? (fun entry => decide (key ≤ entry))

/-- The entry at a key leaves, or the first one when all are below the key. -/
def evictAt (s : Finset α) (key : α) : Finset α :=
  match (lowerBound s key).or (s.sort (· ≤ ·)).head? with
  | some entry => s.erase entry
  | none => s

/-- Entries leave while there are more than the limit. The rounds are numbered down. -/
def trim (limit : Int) (draw : Nat → α) : Nat → Finset α → Finset α
  | 0, s => s
  | n + 1, s => if limit < s.card then trim limit draw n (evictAt s (draw n)) else s

def remember (limit : Int) (draw : Nat → α) (key : α) (s : Finset α) : Finset α :=
  insert key (trim limit draw s.card s)

theorem evictAt_subset (s : Finset α) (key : α) : evictAt s key ⊆ s := by
  unfold evictAt
  split
  · exact s.erase_subset _
  · exact subset_rfl

/-- Something leaves a set that is not empty. -/
theorem card_evictAt {s : Finset α} (hs : s.Nonempty) (key : α) :
    (evictAt s key).card + 1 = s.card := by
  have hmem : ∀ entry, (lowerBound s key).or (s.sort (· ≤ ·)).head? = some entry → entry ∈ s := by
    intro entry hentry
    rw [← Finset.mem_sort (· ≤ ·)]
    rcases Option.or_eq_some_iff.mp hentry with hfind | ⟨_, hhead⟩
    · exact List.mem_of_find?_eq_some hfind
    · exact List.mem_of_mem_head? hhead
  unfold evictAt
  split
  · rename_i entry hentry
    exact Finset.card_erase_add_one (hmem entry hentry)
  · rename_i hnone
    have hempty := List.head?_eq_none_iff.mp (Option.or_eq_none_iff.mp hnone).2
    have hcard := s.length_sort (· ≤ ·)
    rw [hempty, List.length_nil, eq_comm, Finset.card_eq_zero] at hcard
    exact absurd hcard hs.ne_empty

theorem trim_subset (limit : Int) (draw : Nat → α) (n : Nat) (s : Finset α) :
    trim limit draw n s ⊆ s := by
  induction n generalizing s with
  | zero => exact subset_rfl
  | succ n ih =>
    unfold trim
    split
    · exact (ih _).trans (evictAt_subset s _)
    · exact subset_rfl

/-- With a round for each entry, what is left is within the limit. -/
theorem card_trim_le {limit : Int} (hlimit : 0 ≤ limit) (draw : Nat → α) (n : Nat) {s : Finset α}
    (hn : s.card ≤ n) : ((trim limit draw n s).card : Int) ≤ limit := by
  induction n generalizing s with
  | zero =>
    have hzero : s.card = 0 := by omega
    unfold trim
    omega
  | succ n ih =>
    unfold trim
    split
    · rename_i hlt
      have hpos : s.Nonempty := Finset.card_pos.mp (by omega)
      have hcard := card_evictAt hpos (draw n)
      exact ih (by omega)
    · omega

structure Memo (good : α → Prop) (n : Nat) (s : Finset α) : Prop where
  good : ∀ entry ∈ s, good entry
  card_le : s.card ≤ n

omit [LinearOrder α] in
theorem Memo.empty (good : α → Prop) (n : Nat) : Memo good n ∅ :=
  ⟨by simp, by simp⟩

/-- An entry that passes the test goes in. -/
theorem Memo.remember {good : α → Prop} {limit : Nat} {s : Finset α}
    (h : Memo good (limit + 1) s) {key : α} (hkey : good key) (draw : Nat → α) :
    Memo good (limit + 1) (remember limit draw key s) where
  good := by
    intro entry hentry
    rcases Finset.mem_insert.mp hentry with rfl | hold
    · exact hkey
    · exact h.good entry (trim_subset _ _ _ _ hold)
  card_le := by
    have htrim := card_trim_le (Int.natCast_nonneg limit) draw s.card (le_refl s.card)
    have hinsert := Finset.card_insert_le key (trim (limit : Int) draw s.card s)
    unfold Triangles.remember
    omega

end Memo

end Triangles
