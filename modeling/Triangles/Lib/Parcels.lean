import Mathlib.Data.List.Infix
import Mathlib.Data.List.Nodup
import Mathlib.Tactic.Common

/-! Lists that are sent off in parcels of a limited size, and lists of which the most recent items
are remembered. -/

namespace Parcel

variable {α : Type}

abbrev Parcels (α : Type) := List (List α) × List α

def push (limit : Nat) (p : Parcels α) (x : α) : Parcels α :=
  if limit ≤ (p.2 ++ [x]).length then (p.1 ++ [p.2 ++ [x]], []) else (p.1, p.2 ++ [x])

/-- The last parcel is sent off unless it is empty. -/
def close (p : Parcels α) : List (List α) := if p.2.isEmpty then p.1 else p.1 ++ [p.2]

structure Filled (limit : Nat) (p : Parcels α) : Prop where
  full : ∀ m ∈ p.1, m.length = limit
  room : p.2.length < limit

theorem filled_nil {limit : Nat} (h : 0 < limit) : Filled limit (([], []) : Parcels α) :=
  ⟨by simp, h⟩

theorem Filled.push {limit : Nat} {p : Parcels α} (h : Filled limit p) (x : α) :
    Filled limit (push limit p x) := by
  have hroom := h.room
  unfold Parcel.push
  split
  · rename_i hfull
    refine ⟨fun m hm => ?_, by simp only [List.length_nil]; omega⟩
    obtain hm | hm := List.mem_append.mp hm
    · exact h.full m hm
    · obtain rfl := List.mem_singleton.mp hm
      simp only [List.length_append, List.length_singleton] at hfull ⊢
      omega
  · rename_i hfull
    exact ⟨h.full, Nat.not_le.mp hfull⟩

theorem push_flatten (limit : Nat) (p : Parcels α) (x : α) :
    (push limit p x).1.flatten ++ (push limit p x).2 = p.1.flatten ++ p.2 ++ [x] := by
  unfold Parcel.push
  split <;> simp

theorem close_flatten (p : Parcels α) : (close p).flatten = p.1.flatten ++ p.2 := by
  unfold close
  cases hp : p.2 with
  | nil => simp
  | cons x rest => simp

/-- Parcels hold something, and no more than the limit. -/
theorem Filled.close {limit : Nat} {p : Parcels α} (h : Filled limit p) :
    ∀ m ∈ close p, m ≠ [] ∧ m.length ≤ limit := by
  have hroom := h.room
  have hfull : ∀ m ∈ p.1, m ≠ [] ∧ m.length ≤ limit := by
    intro m hm
    have hlen := h.full m hm
    refine ⟨fun hnil => ?_, hlen.le⟩
    rw [hnil, List.length_nil] at hlen
    omega
  unfold Parcel.close
  cases hp : p.2 with
  | nil => simpa using hfull
  | cons x rest =>
    intro m hm
    obtain hm | hm := List.mem_append.mp hm
    · exact hfull m hm
    · obtain rfl := List.mem_singleton.mp hm
      rw [hp] at hroom
      exact ⟨List.cons_ne_nil x rest, hroom.le⟩

/-- Items that do not fill a parcel make up one. -/
theorem foldl_push_short {limit : Nat} (l done : List α) (h : (done ++ l).length < limit) :
    l.foldl (push limit) ([], done) = ([], done ++ l) := by
  induction l generalizing done with
  | nil => rw [List.append_nil, List.foldl_nil]
  | cons x l ih =>
    have hroom : ¬ limit ≤ (done ++ [x]).length := by
      simp only [List.length_append, List.length_cons, List.length_nil] at h ⊢
      omega
    rw [List.foldl_cons, push, if_neg hroom]
    have hrest := ih (done ++ [x]) (by rwa [List.append_assoc, List.singleton_append])
    rwa [List.append_assoc, List.singleton_append] at hrest

/-! The most recent items. -/

def recent (n : Nat) (l : List α) : List α := if n = 0 then l else l.drop (l.length - n)

def Spaced (n : Nat) (l : List α) : Prop :=
  ∀ w, w <:+: l → n = 0 ∨ w.length ≤ n + 1 → w.Nodup

theorem spaced_nil (n : Nat) : Spaced n ([] : List α) := by
  intro w hw _
  rw [List.infix_nil.mp hw]
  exact List.nodup_nil

theorem mem_recent_of_suffix {n : Nat} {l t : List α} {x : α} (ht : t <:+ l)
    (hlen : n = 0 ∨ t.length ≤ n) (hx : x ∈ t) : x ∈ recent n l := by
  unfold recent
  split
  · exact ht.subset hx
  · rename_i hn
    rw [List.suffix_iff_eq_drop.mp ht] at hx
    exact List.drop_subset_drop_left l (by omega) hx

theorem Spaced.concat {n : Nat} {l : List α} {x : α} (h : Spaced n l) (hx : x ∉ recent n l) :
    Spaced n (l ++ [x]) := by
  intro w hw hlen
  obtain hw | hw := List.infix_concat_iff.mp hw
  · obtain rfl | ⟨t, rfl, ht⟩ := List.suffix_concat_iff.mp hw
    · exact List.nodup_nil
    · rw [List.length_append, List.length_singleton] at hlen
      have hnew : x ∉ t := fun hmem => hx (mem_recent_of_suffix ht (by omega) hmem)
      have hold : t.Nodup := h t ht.isInfix (by omega)
      rw [List.nodup_append]
      refine ⟨hold, List.nodup_singleton x, ?_⟩
      rintro a ha b hb rfl
      exact hnew (by rwa [List.mem_singleton.mp hb] at ha)
  · exact h w hw hlen

end Parcel
