import Mathlib.Tactic.Common

/-! Loops over the entries of an ordered map, each round of which looks at one slot only, and maps
that are filled from a list. -/

namespace Slots

open Std (ExtTreeMap)

variable {σ κ ν γ : Type}

/-- Rounds with distinct keys, each of which changes the slot of its key by `g`, change every slot
that has a round once. -/
theorem foldl_slot (get : σ → κ → γ) (step : σ → κ × ν → σ) (g : κ × ν → γ → γ)
    (hframe : ∀ s p k, k ≠ p.1 → get (step s p) k = get s k)
    (hslot : ∀ s p, get (step s p) p.1 = g p (get s p.1)) (l : List (κ × ν))
    (hl : (l.map Prod.fst).Nodup) (s : σ) (k : κ) :
    (∀ p ∈ l, p.1 = k → get (l.foldl step s) k = g p (get s k)) ∧
      (k ∉ l.map Prod.fst → get (l.foldl step s) k = get s k) := by
  induction l generalizing s with
  | nil => exact ⟨nofun, fun _ => rfl⟩
  | cons p l ih =>
    rw [List.map_cons, List.nodup_cons] at hl
    obtain ⟨hrest, hnone⟩ := ih hl.2 (step s p)
    rw [List.foldl_cons]
    constructor
    · intro q hq hk
      rcases List.mem_cons.mp hq with rfl | hq
      · subst hk
        rw [hnone hl.1, hslot]
      · have hne : k ≠ p.1 := fun h =>
          hl.1 (h ▸ hk ▸ List.mem_map_of_mem (f := Prod.fst) hq)
        rw [hrest q hq hk, hframe _ _ _ hne]
    · intro hk
      rw [List.map_cons, List.mem_cons, not_or] at hk
      rw [hnone hk.2, hframe _ _ _ hk.1]

section Map

variable {cmp : κ → κ → Ordering} [Std.TransCmp cmp] [Std.LawfulEqCmp cmp]

theorem toList_keys_nodup (m : ExtTreeMap κ ν cmp) : (m.toList.map Prod.fst).Nodup := by
  have hkeys := m.distinct_keys_toList
  rw [List.Nodup, List.pairwise_map]
  refine hkeys.imp fun {a b} hne heq => hne ?_
  rw [heq]
  exact Std.ReflCmp.compare_self

theorem getElem?_insert_eq [DecidableEq κ] (m : ExtTreeMap κ ν cmp) (k a : κ) (v : ν) :
    (m.insert k v)[a]? = if k = a then some v else m[a]? := by
  rw [ExtTreeMap.getElem?_insert]
  simp only [Std.LawfulEqCmp.compare_eq_iff_eq]

/-- Entries that are inserted where there are none yet. -/
theorem getElem?_foldl_insertIfNew [DecidableEq κ] (l : List (κ × ν)) (hl : (l.map Prod.fst).Nodup)
    (m : ExtTreeMap κ ν cmp) (k : κ) (v : ν) :
    (l.foldl (fun m p => m.insertIfNew p.1 p.2) m)[k]? = some v ↔
      m[k]? = some v ∨ m[k]? = none ∧ (k, v) ∈ l := by
  induction l generalizing m with
  | nil => simp
  | cons p l ih =>
    rw [List.map_cons, List.nodup_cons] at hl
    rw [List.foldl_cons, ih hl.2, ExtTreeMap.getElem?_insertIfNew]
    simp only [Std.LawfulEqCmp.compare_eq_iff_eq, List.mem_cons]
    by_cases hk : p.1 = k
    · subst hk
      have hnot : (p.1, v) ∉ l := fun h => hl.1 (List.mem_map.mpr ⟨_, h, rfl⟩)
      by_cases hmem : p.1 ∈ m
      · simp [hmem, hnot]
      · have hnone : m[p.1]? = none := ExtTreeMap.getElem?_eq_none hmem
        simp only [hmem, hnone, hnot]
        simp [Prod.ext_iff, eq_comm]
    · have hne : (k, v) ≠ p := fun h => hk (by rw [← h])
      simp [hk, hne]

/-- Inserting entries looks at one slot at a time. -/
theorem getElem?_foldl_insert_congr [DecidableEq κ] (l : List (κ × ν)) {m m' : ExtTreeMap κ ν cmp}
    {k : κ} (h : m[k]? = m'[k]?) :
    (l.foldl (fun m p => m.insert p.1 p.2) m)[k]? =
      (l.foldl (fun m p => m.insert p.1 p.2) m')[k]? := by
  induction l generalizing m m' with
  | nil => exact h
  | cons p l ih =>
    rw [List.foldl_cons, List.foldl_cons]
    apply ih
    rw [getElem?_insert_eq, getElem?_insert_eq, h]

/-- An entry was there before, or is inserted. -/
theorem getElem?_foldl_insert_some [DecidableEq κ] (l : List (κ × ν)) (m : ExtTreeMap κ ν cmp)
    {k : κ} {v : ν} (h : (l.foldl (fun m p => m.insert p.1 p.2) m)[k]? = some v) :
    m[k]? = some v ∨ (k, v) ∈ l := by
  induction l generalizing m with
  | nil => exact .inl h
  | cons p l ih =>
    rw [List.foldl_cons] at h
    rcases ih _ h with hm | hl
    · rw [getElem?_insert_eq] at hm
      split at hm
      · rename_i hk
        obtain rfl := Option.some.inj hm
        exact .inr (hk ▸ List.mem_cons_self)
      · exact .inl hm
    · exact .inr (List.mem_cons_of_mem _ hl)

/-- With distinct keys every entry that is inserted stays. -/
theorem getElem?_foldl_insert_mem [DecidableEq κ] (l : List (κ × ν)) (hl : (l.map Prod.fst).Nodup)
    (m : ExtTreeMap κ ν cmp) {p : κ × ν} (hp : p ∈ l) :
    (l.foldl (fun m p => m.insert p.1 p.2) m)[p.1]? = some p.2 := by
  induction l generalizing m with
  | nil => cases hp
  | cons q l ih =>
    rw [List.map_cons, List.nodup_cons] at hl
    rw [List.foldl_cons]
    rcases List.mem_cons.mp hp with rfl | hp
    · have hslot := foldl_slot (fun (m : ExtTreeMap κ ν cmp) k => m[k]?)
        (fun m p => m.insert p.1 p.2) (fun p _ => some p.2)
        (fun m p k hne => by rw [getElem?_insert_eq, if_neg hne.symm])
        (fun m p => by rw [getElem?_insert_eq, if_pos rfl]) l hl.2 (m.insert p.1 p.2) p.1
      exact (hslot.2 hl.1).trans (by rw [getElem?_insert_eq, if_pos rfl])
    · exact ih hl.2 _ hp

end Map

/-- Seeking in a sorted list: what is left of the elements before, taken as long as it fits, is all
that fits, when the elements before do not fit and those that fit lie together. -/
theorem takeWhile_dropWhile_filter {α : Type} {p q : α → Bool} {l : List α}
    (hq : ∀ a ∈ l, q a = true → p a = false)
    (hpair : l.Pairwise fun a b => q a = false → q b = false ∧ (p b = true → p a = true)) :
    (l.dropWhile q).takeWhile p = l.filter p := by
  induction l with
  | nil => rfl
  | cons a l ih =>
    rw [List.pairwise_cons] at hpair
    cases hqa : q a with
    | true =>
      rw [List.dropWhile_cons_of_pos hqa, List.filter_cons_of_neg (by rw [hq a List.mem_cons_self hqa]; decide)]
      exact ih (fun b hb => hq b (List.mem_cons_of_mem _ hb)) hpair.2
    | false =>
      have hrest : l.dropWhile q = l := by
        cases l with
        | nil => rfl
        | cons b l => rw [List.dropWhile_cons_of_neg (by rw [(hpair.1 b List.mem_cons_self hqa).1]; decide)]
      have hih := ih (fun b hb => hq b (List.mem_cons_of_mem _ hb)) hpair.2
      rw [hrest] at hih
      rw [List.dropWhile_cons_of_neg (by rw [hqa]; decide)]
      cases hpa : p a with
      | true => rw [List.takeWhile_cons_of_pos hpa, List.filter_cons_of_pos hpa, hih]
      | false =>
        rw [List.takeWhile_cons_of_neg (by rw [hpa]; decide),
          List.filter_cons_of_neg (by rw [hpa]; decide), eq_comm, List.filter_eq_nil_iff]
        intro b hb hpb
        rw [(hpair.1 b hb hqa).2 hpb] at hpa
        cases hpa

end Slots

/-! Which parts of a vector a parser reads. A span is an offset and a number of elements. -/

namespace Spans

def Inside (size : Nat) (reads : List (Nat × Nat)) : Prop := ∀ r ∈ reads, r.1 + r.2 ≤ size

instance (size : Nat) (reads : List (Nat × Nat)) : Decidable (Inside size reads) :=
  inferInstanceAs (Decidable (∀ r ∈ reads, r.1 + r.2 ≤ size))

def table (base stride width n : Nat) : List (Nat × Nat) :=
  (List.range n).map fun i => (base + stride * i, width)

variable {size : Nat} {reads reads' : List (Nat × Nat)} {r : Nat × Nat}

@[simp] theorem inside_nil : Inside size [] := nofun

@[simp] theorem inside_cons : Inside size (r :: reads) ↔ r.1 + r.2 ≤ size ∧ Inside size reads :=
  List.forall_mem_cons

@[simp] theorem inside_append :
    Inside size (reads ++ reads') ↔ Inside size reads ∧ Inside size reads' :=
  List.forall_mem_append

/-- A column lies in a vector that the rows of the table fit in. -/
theorem inside_table {start base stride width n : Nat} (hcolumn : base + width ≤ start + stride)
    (hrows : start + stride * n ≤ size) : Inside size (table base stride width n) := by
  intro r hr
  obtain ⟨i, hi, rfl⟩ := List.mem_map.mp hr
  have hlt := List.mem_range.mp hi
  have hrow : stride * (i + 1) ≤ stride * n := Nat.mul_le_mul_left stride hlt
  rw [Nat.mul_add, Nat.mul_one] at hrow
  simp only
  omega

end Spans
