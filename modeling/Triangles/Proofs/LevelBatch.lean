import Mathlib.Data.List.Pairwise
import Mathlib.Data.List.Perm.Basic
import Mathlib.Tactic.Ring
import Triangles.Model.LevelBatch
import Triangles.Model.LevelLog
import Triangles.Proofs.RoundTrip

/-! The skip list keeps its keys in order, whatever heights its nodes have. -/

namespace Triangles.LevelDb.SkipList

open Linked

variable {Key : Type} {cmp : Key → Key → Ordering}

/-- The nodes in the order of their keys. -/
def Ascending (cmp : Key → Key → Ordering) (list : SkipList Key) (i j : Nat) : Prop :=
  ∀ k ∈ list.key? i, ∀ l ∈ list.key? j, cmp k l = .lt

/-- Each level links those nodes of one order that are higher than the level. -/
structure Ordered (cmp : Key → Key → Ordering) (list : SkipList Key) (order : List Nat)
    (height : Nat → Nat) : Prop where
  nodes : order.Perm (List.range' 1 list.keys.length)
  sorted : order.Pairwise (Ascending cmp list)
  visits : ∀ level, Visits (list.next level) 0 (order.filter fun i => level < height i)
  pos : ∀ i ∈ order, 0 < height i
  high : ∀ i ∈ order, height i ≤ list.maxHeight
  max_pos : 0 < list.maxHeight

theorem ordered_empty : Ordered cmp (empty : SkipList Key) [] fun _ => 0 where
  nodes := List.Perm.refl []
  sorted := List.Pairwise.nil
  visits _ := rfl
  pos _ h := by simp at h
  high _ h := by simp at h
  max_pos := Nat.one_pos

section Search

variable {list : SkipList Key} {order : List Nat} {height : Nat → Nat}

theorem Ordered.mem_iff (h : Ordered cmp list order height) (i : Nat) :
    i ∈ order ↔ 1 ≤ i ∧ i ≤ list.keys.length := by
  rw [h.nodes.mem_iff, List.mem_range'_1]
  omega

theorem Ordered.length_eq (h : Ordered cmp list order height) :
    order.length = list.keys.length := by
  simpa using h.nodes.length_eq

theorem Ordered.nodup (h : Ordered cmp list order height) : (0 :: order).Nodup := by
  refine List.nodup_cons.mpr ⟨?_, ?_⟩
  · intro h0
    have := (h.mem_iff 0).mp h0
    omega
  · exact h.nodes.nodup_iff.mpr (List.nodup_range')

theorem Ordered.key_of_mem (h : Ordered cmp list order height) {i : Nat} (hi : i ∈ order) :
    ∃ k, list.key? i = some k := by
  obtain ⟨hpos, hlen⟩ := (h.mem_iff i).mp hi
  obtain ⟨n, rfl⟩ := Nat.exists_eq_succ_of_ne_zero (Nat.ne_of_gt hpos)
  exact ⟨list.keys[n], List.getElem?_eq_getElem hlen⟩

theorem Ordered.mem_keys (h : Ordered cmp list order height) (k : Key) :
    k ∈ list.keys ↔ ∃ i ∈ order, list.key? i = some k := by
  constructor
  · intro hk
    obtain ⟨n, hn, hkey⟩ := List.getElem_of_mem hk
    refine ⟨n + 1, (h.mem_iff _).mpr (by omega), ?_⟩
    rw [← hkey]
    exact List.getElem?_eq_getElem hn
  · rintro ⟨i, -, hkey⟩
    cases i with
    | zero => cases hkey
    | succ n => exact List.mem_of_getElem? hkey

/-- The nodes before a key, and the nodes from it on. -/
structure Cut (cmp : Key → Key → Ordering) (list : SkipList Key) (key : Key)
    (order low high : List Nat) : Prop where
  eq : order = low ++ high
  before : ∀ i ∈ low, list.keyIsAfterNode cmp key i = true
  after : ∀ i ∈ high, list.keyIsAfterNode cmp key i = false

theorem keyIsAfterNode_iff {key : Key} {i : Nat} :
    list.keyIsAfterNode cmp key i = true ↔ ∃ k, list.key? i = some k ∧ cmp k key = .lt := by
  unfold keyIsAfterNode
  cases list.key? i <;> simp

theorem Ordered.exists_cut [Std.TransCmp cmp] (h : Ordered cmp list order height) (key : Key) :
    ∃ low high, Cut cmp list key order low high := by
  refine ⟨order.takeWhile (list.keyIsAfterNode cmp key),
    order.dropWhile (list.keyIsAfterNode cmp key), List.takeWhile_append_dropWhile.symm,
    fun i hi => List.all_eq_true.mp List.all_takeWhile i hi, ?_⟩
  intro i hi
  have hsorted := h.sorted
  rw [← List.takeWhile_append_dropWhile (p := list.keyIsAfterNode cmp key) (l := order)] at hsorted
  have hhigh := (List.pairwise_append.mp hsorted).2.1
  cases hd : order.dropWhile (list.keyIsAfterNode cmp key) with
  | nil => rw [hd] at hi; simp at hi
  | cons j rest =>
    have hj : list.keyIsAfterNode cmp key j = false := by
      have hne : order.dropWhile (list.keyIsAfterNode cmp key) ≠ [] := by simp [hd]
      have := List.head_dropWhile_not (list.keyIsAfterNode cmp key) hne
      simpa [hd] using this
    rw [hd] at hi hhigh
    rcases List.mem_cons.mp hi with rfl | hi
    · exact hj
    · -- a node behind one that is not before the key is not before it either
      by_contra hlt
      rw [Bool.not_eq_false] at hlt
      obtain ⟨k, hk, hkey⟩ := keyIsAfterNode_iff.mp hlt
      have hmem : j ∈ order := by
        apply List.dropWhile_sublist (list.keyIsAfterNode cmp key) |>.subset
        simp [hd]
      obtain ⟨l, hl⟩ := h.key_of_mem hmem
      have hjl := (List.pairwise_cons.mp hhigh).1 i hi l hl k hk
      have : list.keyIsAfterNode cmp key j = true :=
        keyIsAfterNode_iff.mpr ⟨l, hl, Std.TransCmp.lt_trans hjl hkey⟩
      rw [hj] at this
      cases this

/-- Each level ends at the last of its nodes before the key, and below the lowest level comes the
first node from the key on. -/
theorem Cut.findFrom_eq {key : Key} {low high : List Nat} (h : Ordered cmp list order height)
    (hcut : Cut cmp list key order low high) (level x : Nat)
    (hx : ∃ c d, low.filter (fun i => level < height i) = c ++ d ∧ lastOf 0 c = x) :
    list.findFrom cmp key level x =
      (high.head?, (List.range (level + 1)).map fun i =>
        lastOf 0 (low.filter fun n => i < height n)) := by
  have hwalk : ∀ level x, (∃ c d, low.filter (fun i => level < height i) = c ++ d ∧
      lastOf 0 c = x) → Linked.walk (list.next level) (list.keyIsAfterNode cmp key) list.keys.length x =
        lastOf 0 (low.filter fun i => level < height i) := by
    rintro level x ⟨c, d, hcd, rfl⟩
    have hv := h.visits level
    rw [hcut.eq, List.filter_append, hcd, List.append_assoc] at hv
    have hd := (visits_append.mp hv).2
    have hmem : ∀ i ∈ c ++ d, i ∈ low := by
      intro i hi
      rw [← hcd] at hi
      exact List.mem_of_mem_filter hi
    rw [hcd, lastOf_append]
    apply walk_eq hd
    · have hle : (c ++ d).length ≤ order.length := by
        rw [← hcd, hcut.eq, List.length_append]
        exact Nat.le_trans (List.length_filter_le _ _) (Nat.le_add_right _ _)
      rw [h.length_eq, List.length_append] at hle
      omega
    · exact fun i hi => hcut.before i (hmem i (List.mem_append_right c hi))
    · exact fun i hi => hcut.after i (List.mem_of_mem_filter (List.mem_of_mem_head? hi))
  induction level generalizing x with
  | zero =>
    have hall : ∀ l, l ⊆ order → l.filter (fun i => 0 < height i) = l := by
      intro l hl
      exact List.filter_eq_self.mpr fun i hi => by simpa using h.pos i (hl hi)
    have hv := h.visits 0
    rw [hall order (List.Subset.refl _), hcut.eq] at hv
    have hlow : low ⊆ order := fun i hi => hcut.eq ▸ List.mem_append_left high hi
    have hnext := hv.next_last
    simp only [findFrom, hwalk 0 x hx, hall low hlow, hnext]
    simp [hall low hlow]
  | succ level ih =>
    have hnext : ∃ c d, low.filter (fun i => level < height i) = c ++ d ∧
        lastOf 0 c = lastOf 0 (low.filter fun i => level + 1 < height i) := by
      apply filter_split 0 (fun i => decide (level + 1 < height i))
      intro i hi
      simp only [decide_eq_true_eq] at hi ⊢
      omega
    simp only [findFrom, hwalk (level + 1) x hx]
    rw [ih _ hnext, List.range_succ (n := level + 1), List.map_append]
    rfl

theorem Cut.find_eq {key : Key} {low high : List Nat} (h : Ordered cmp list order height)
    (hcut : Cut cmp list key order low high) :
    list.findGreaterOrEqual cmp key =
      (high.head?, (List.range list.maxHeight).map fun i =>
        lastOf 0 (low.filter fun n => i < height n)) := by
  unfold findGreaterOrEqual
  rw [hcut.findFrom_eq h _ 0 ⟨[], _, rfl, rfl⟩, Nat.sub_add_cancel h.max_pos]

/-- The predecessor on a level, also on one that no node has reached yet. -/
theorem Cut.prev_eq {key : Key} {low high : List Nat} (h : Ordered cmp list order height)
    (hcut : Cut cmp list key order low high) (i : Nat) :
    (list.findGreaterOrEqual cmp key).2.getD i 0 = lastOf 0 (low.filter fun n => i < height n) := by
  rw [hcut.find_eq h]
  by_cases hi : i < list.maxHeight
  · simp [List.getD, hi]
  · have hnone : low.filter (fun n => decide (i < height n)) = [] := by
      apply List.filter_eq_nil_iff.mpr
      intro n hn
      have := h.high n (hcut.eq ▸ List.mem_append_left high hn)
      simp only [decide_eq_true_eq]
      omega
    simp [List.getD, hi, hnone]

end Search

/-! Insertion. -/

section Insert

theorem foldl_linkLevel (x : Nat) (prev : List Nat) (next : Nat → Nat → Option Nat)
    (height level : Nat) :
    (List.range height).foldl (linkLevel x prev) next level =
      if level < height then linkLevel x prev next level level else next level := by
  induction height with
  | zero => simp
  | succ height ih =>
    rw [List.range_succ, List.foldl_append, List.foldl_cons, List.foldl_nil]
    by_cases hl : level = height
    · subst hl
      simp only [linkLevel, Function.update_self, Nat.lt_succ_self, if_true]
      simp only [Nat.lt_irrefl, if_false] at ih
      rw [ih]
    · rw [linkLevel, Function.update_of_ne hl, ih]
      simp only [Nat.lt_succ_iff_lt_or_eq, hl, or_false]

variable {list : SkipList Key} {order : List Nat} {height : Nat → Nat}

theorem key?_insert_old {h : Nat} {key : Key} {i : Nat} (hi : i ≤ list.keys.length) :
    (list.insert cmp h key).key? i = list.key? i := by
  cases i with
  | zero => rfl
  | succ n => exact List.getElem?_append_left hi

theorem key?_insert_new (h : Nat) (key : Key) :
    (list.insert cmp h key).key? (list.keys.length + 1) = some key := by
  simp [key?, insert]

section Cut

variable {key : Key} {low high : List Nat} (h : Ordered cmp list order height)
  (hcut : Cut cmp list key order low high)
include h hcut

theorem Cut.mem_range {i : Nat} (hi : i ∈ low ++ high) :
    1 ≤ i ∧ i ≤ list.keys.length :=
  (h.mem_iff i).mp (hcut.eq ▸ hi)

theorem Cut.nodes_insert (n : Nat) :
    (low ++ (list.keys.length + 1) :: high).Perm
      (List.range' 1 (list.insert cmp n key).keys.length) := by
  have hlen : (list.insert cmp n key).keys.length = list.keys.length + 1 := by simp [SkipList.insert]
  rw [hlen, List.range'_concat]
  refine List.perm_middle.trans ?_
  refine ((hcut.eq ▸ h.nodes).cons _).trans ?_
  rw [Nat.one_mul, Nat.add_comm 1]
  exact (List.perm_append_singleton _ _).symm

theorem Cut.sorted_insert [Std.TransCmp cmp] (n : Nat)
    (hnew : ∀ k ∈ list.keys, cmp key k ≠ .eq) :
    (low ++ (list.keys.length + 1) :: high).Pairwise (Ascending cmp (list.insert cmp n key)) := by
  have hold : (low ++ high).Pairwise (Ascending cmp (list.insert cmp n key)) := by
    have hsorted := h.sorted
    rw [hcut.eq] at hsorted
    refine hsorted.imp_of_mem ?_
    intro i j hi hj hij k hk l hl
    rw [key?_insert_old (hcut.mem_range h hi).2] at hk
    rw [key?_insert_old (hcut.mem_range h hj).2] at hl
    exact hij k hk l hl
  obtain ⟨hlow, hhigh, hboth⟩ := List.pairwise_append.mp hold
  refine List.pairwise_append.mpr ⟨hlow, List.pairwise_cons.mpr ⟨?_, hhigh⟩, ?_⟩
  · intro j hj k hk l hl
    rw [key?_insert_new] at hk
    rw [key?_insert_old (hcut.mem_range h (List.mem_append_right low hj)).2] at hl
    obtain rfl := Option.some.inj hk
    have hmemk : l ∈ list.keys :=
      (h.mem_keys l).mpr ⟨j, hcut.eq ▸ List.mem_append_right low hj, hl⟩
    -- the new key is not after this node's key, nor equal to it
    have hnot := hcut.after j hj
    cases hc : cmp key l with
    | lt => rfl
    | eq => exact absurd hc (hnew l hmemk)
    | gt =>
      have : list.keyIsAfterNode cmp key j = true :=
        keyIsAfterNode_iff.mpr ⟨l, hl, Std.OrientedCmp.gt_iff_lt.mp hc⟩
      rw [hnot] at this
      cases this
  · intro i hi j hj
    rcases List.mem_cons.mp hj with rfl | hj
    · intro k hk l hl
      rw [key?_insert_new] at hl
      rw [key?_insert_old (hcut.mem_range h (List.mem_append_left high hi)).2] at hk
      obtain rfl := Option.some.inj hl
      obtain ⟨k', hk', hlt⟩ := keyIsAfterNode_iff.mp (hcut.before i hi)
      rw [hk] at hk'
      obtain rfl := Option.some.inj hk'
      exact hlt
    · exact hboth i hi j hj

/-- On the levels that the new node has it stands between the two parts. -/
theorem Cut.visits_insert (n level : Nat) :
    Visits ((list.insert cmp n key).next level) 0 ((low ++ (list.keys.length + 1) :: high).filter fun i =>
      decide (level < Function.update height (list.keys.length + 1) n i)) := by
  have hx : list.keys.length + 1 ∉ 0 :: (low ++ high) := by
    intro hmem
    rcases List.mem_cons.mp hmem with h0 | h0
    · omega
    · have := hcut.mem_range h h0
      omega
  have hfilter : ∀ l : List Nat, l ⊆ low ++ high →
      l.filter (fun i => decide (level < Function.update height (list.keys.length + 1) n i)) =
        l.filter fun i => decide (level < height i) := by
    intro l hl
    apply List.filter_congr
    intro i hi
    have := hcut.mem_range h (hl hi)
    rw [Function.update_of_ne (by omega)]
  have hv := h.visits level
  rw [hcut.eq, List.filter_append] at hv
  rw [List.filter_append, List.filter_cons, hfilter low (List.subset_append_left _ _),
    hfilter high (List.subset_append_right _ _), Function.update_self]
  have hnext : (list.insert cmp n key).next level =
      if level < n then linkLevel (list.keys.length + 1) (list.findGreaterOrEqual cmp key).2
        list.next level level else list.next level := foldl_linkLevel _ _ _ n level
  rw [hnext]
  by_cases hl : level < n
  · simp only [hl, decide_true, if_true, linkLevel, Function.update_self, hcut.prev_eq h]
    have hsub : ((low.filter fun i => decide (level < height i)) ++
        high.filter fun i => decide (level < height i)).Sublist (low ++ high) :=
      List.filter_sublist.append List.filter_sublist
    apply hv.splice
    · exact (hcut.eq ▸ h.nodup).sublist (hsub.cons_cons 0)
    · exact fun hmem => hx ((hsub.cons_cons 0).subset hmem)
  · simpa [hl] using hv

end Cut

theorem Ordered.insert [Std.TransCmp cmp] (h : Ordered cmp list order height) {n : Nat} {key : Key}
    (hn : 0 < n) (hnew : ∀ k ∈ list.keys, cmp key k ≠ .eq) :
    ∃ order', Ordered cmp (list.insert cmp n key) order'
      (Function.update height (list.keys.length + 1) n) := by
  obtain ⟨low, high, hcut⟩ := h.exists_cut key
  have hold : ∀ i ∈ low ++ (list.keys.length + 1) :: high, i = list.keys.length + 1 ∨ i ∈ order := by
    intro i hi
    rw [hcut.eq]
    simpa [or_left_comm] using hi
  refine ⟨low ++ (list.keys.length + 1) :: high, hcut.nodes_insert h n, hcut.sorted_insert h n hnew,
    hcut.visits_insert h n, ?_, ?_, ?_⟩
  · intro i hi
    by_cases hix : i = list.keys.length + 1
    · rw [hix, Function.update_self]
      exact hn
    · rw [Function.update_of_ne hix]
      exact h.pos i ((hold i hi).resolve_left hix)
  · intro i hi
    by_cases hix : i = list.keys.length + 1
    · rw [hix, Function.update_self]
      exact Nat.le_max_right _ _
    · rw [Function.update_of_ne hix]
      exact Nat.le_trans (h.high i ((hold i hi).resolve_left hix)) (Nat.le_max_left _ _)
  · exact Nat.lt_of_lt_of_le h.max_pos (Nat.le_max_left _ _)

end Insert

/-! Runs. -/

theorem filterMap_range_getElem? (l : List Key) :
    (List.range l.length).filterMap (fun n => l[n]?) = l := by
  induction l using List.reverseRecOn with
  | nil => rfl
  | append_singleton l k ih =>
    rw [List.length_append, List.length_singleton, List.range_succ, List.filterMap_append]
    have hold : (List.range l.length).filterMap (fun n => (l ++ [k])[n]?) = l := by
      rw [List.filterMap_congr fun n hn => List.getElem?_append_left (List.mem_range.mp hn)]
      exact ih
    rw [hold]
    simp

theorem filterMap_key? (list : SkipList Key) :
    (List.range' 1 list.keys.length).filterMap list.key? = list.keys := by
  rw [List.range'_eq_map_range, List.filterMap_map]
  have hkey : ∀ n, list.key? (1 + n) = list.keys[n]? := fun n => by rw [Nat.add_comm]; rfl
  have hcongr : (list.key? ∘ fun n => 1 + n) = fun n => list.keys[n]? := funext hkey
  rw [hcongr]
  exact filterMap_range_getElem? list.keys

def build (cmp : Key → Key → Ordering) (items : List (Nat × Key)) : SkipList Key :=
  items.foldl (fun list item => list.insert cmp item.1 item.2) empty

theorem build_concat (items : List (Nat × Key)) (item : Nat × Key) :
    build cmp (items ++ [item]) = (build cmp items).insert cmp item.1 item.2 := by
  simp [build]

variable (cmp) in
theorem build_keys (items : List (Nat × Key)) : (build cmp items).keys = items.map Prod.snd := by
  induction items using List.reverseRecOn with
  | nil => rfl
  | append_singleton items item ih => simp [build_concat, insert, ih]

theorem build_ordered [Std.TransCmp cmp] (items : List (Nat × Key)) (hpos : ∀ p ∈ items, 0 < p.1)
    (hnew : items.Pairwise fun p q => cmp q.2 p.2 ≠ .eq) :
    ∃ order height, Ordered cmp (build cmp items) order height := by
  induction items using List.reverseRecOn with
  | nil => exact ⟨[], _, ordered_empty⟩
  | append_singleton items item ih =>
    obtain ⟨hitems, -, hlast⟩ := List.pairwise_append.mp hnew
    obtain ⟨order, height, h⟩ := ih (fun p hp => hpos p (List.mem_append_left _ hp)) hitems
    rw [build_concat]
    obtain ⟨order', h'⟩ :=
      @Ordered.insert _ _ _ _ _ _ h item.1 item.2 (hpos item (by simp)) (by
        intro k hk
        rw [build_keys] at hk
        obtain ⟨p, hp, rfl⟩ := List.mem_map.mp hk
        exact hlast p hp item (by simp))
    exact ⟨order', _, h'⟩

theorem build_maxHeight (items : List (Nat × Key)) (hheight : ∀ p ∈ items, p.1 ≤ kMaxHeight) :
    (build cmp items).maxHeight ≤ kMaxHeight := by
  induction items using List.reverseRecOn with
  | nil => exact (by decide : 1 ≤ kMaxHeight)
  | append_singleton items item ih =>
    rw [build_concat]
    refine Nat.max_le.mpr ⟨ih fun p hp => hheight p (List.mem_append_left _ hp), ?_⟩
    exact hheight item (by simp)

theorem Ordered.seek_some [Std.TransCmp cmp] {list : SkipList Key} {order : List Nat}
    {height : Nat → Nat} (h : Ordered cmp list order height) {target k : Key}
    (hk : list.seek cmp target = some k) :
    k ∈ list.keys ∧ cmp k target ≠ .lt ∧
      ∀ l ∈ list.keys, cmp l target ≠ .lt → cmp l k ≠ .lt := by
  obtain ⟨low, high, hcut⟩ := h.exists_cut target
  unfold seek at hk
  rw [hcut.find_eq h] at hk
  obtain ⟨i, hi, hkey⟩ := Option.bind_eq_some_iff.mp hk
  obtain ⟨rest, hhigh⟩ : ∃ rest, high = i :: rest := List.head?_eq_some_iff.mp hi
  have himem : i ∈ order := by rw [hcut.eq, hhigh]; simp
  refine ⟨(h.mem_keys k).mpr ⟨i, himem, hkey⟩, ?_, ?_⟩
  · intro hlt
    have hafter := hcut.after i (by rw [hhigh]; simp)
    rw [keyIsAfterNode_iff.mpr ⟨k, hkey, hlt⟩] at hafter
    cases hafter
  · intro l hl hge hlk
    obtain ⟨j, hj, hjkey⟩ := (h.mem_keys l).mp hl
    rw [hcut.eq, hhigh, List.mem_append, List.mem_cons] at hj
    rcases hj with hj | rfl | hj
    · obtain ⟨l', hl', hlt⟩ := keyIsAfterNode_iff.mp (hcut.before j hj)
      rw [hjkey] at hl'
      obtain rfl := Option.some.inj hl'
      exact hge hlt
    · rw [hkey] at hjkey
      obtain rfl := Option.some.inj hjkey
      rw [@Std.ReflCmp.compare_self _ cmp] at hlk
      cases hlk
    · have hsorted := h.sorted
      rw [hcut.eq, hhigh] at hsorted
      have hil := (List.pairwise_cons.mp (List.pairwise_append.mp hsorted).2.1).1 j hj k hkey l
        hjkey
      have := Std.TransCmp.lt_trans hil hlk
      rw [@Std.ReflCmp.compare_self _ cmp] at this
      cases this

theorem Ordered.seek_none [Std.TransCmp cmp] {list : SkipList Key} {order : List Nat}
    {height : Nat → Nat} (h : Ordered cmp list order height) {target : Key} :
    list.seek cmp target = none ↔ ∀ l ∈ list.keys, cmp l target = .lt := by
  obtain ⟨low, high, hcut⟩ := h.exists_cut target
  unfold seek
  rw [hcut.find_eq h]
  constructor
  · intro hnone l hl
    obtain ⟨j, hj, hjkey⟩ := (h.mem_keys l).mp hl
    have hhigh : high = [] := by
      cases hh : high with
      | nil => rfl
      | cons i rest =>
        obtain ⟨k, hk⟩ := h.key_of_mem (i := i) (by rw [hcut.eq, hh]; simp)
        simp [hh, hk] at hnone
    rw [hcut.eq, hhigh, List.append_nil] at hj
    obtain ⟨l', hl', hlt⟩ := keyIsAfterNode_iff.mp (hcut.before j hj)
    rw [hjkey] at hl'
    obtain rfl := Option.some.inj hl'
    exact hlt
  · intro hall
    cases hh : high with
    | nil => rfl
    | cons i rest =>
      have himem : i ∈ order := by rw [hcut.eq, hh]; simp
      obtain ⟨k, hk⟩ := h.key_of_mem himem
      have hlt := hall k ((h.mem_keys k).mpr ⟨i, himem, hk⟩)
      have hafter := hcut.after i (by rw [hh]; simp)
      rw [keyIsAfterNode_iff.mpr ⟨k, hk, hlt⟩] at hafter
      cases hafter

theorem Ordered.contains_iff [Std.TransCmp cmp] {list : SkipList Key} {order : List Nat}
    {height : Nat → Nat} (h : Ordered cmp list order height) (key : Key) :
    list.contains cmp key = true ↔ ∃ k ∈ list.keys, cmp key k = .eq := by
  have hfound : (list.findGreaterOrEqual cmp key).1.bind list.key? = list.seek cmp key := rfl
  rw [contains, hfound]
  cases hseek : list.seek cmp key with
  | none =>
    refine iff_of_false (by simp) ?_
    rintro ⟨k, hk, heq⟩
    have hlt := h.seek_none.mp hseek k hk
    rw [Std.OrientedCmp.eq_comm.mp heq] at hlt
    cases hlt
  | some k =>
    obtain ⟨hk, hge, hleast⟩ := h.seek_some hseek
    refine ⟨fun heq => ⟨k, hk, by simpa using heq⟩, ?_⟩
    rintro ⟨l, hl, heq⟩
    have hlk : cmp l k ≠ .lt := by
      apply hleast l hl
      rw [Std.OrientedCmp.eq_comm.mp heq]
      decide
    rw [← Std.TransCmp.congr_left heq] at hlk
    cases hc : cmp key k with
    | lt => exact absurd hc hlk
    | eq => simp [hc]
    | gt => exact absurd (Std.OrientedCmp.gt_iff_lt.mp hc) hge

/-- After any insertions of different keys at any heights that `RandomHeight` can draw, the lowest
level links all keys in ascending order, a search finds the least key that is not below its target,
and the height never passes the array of predecessors. -/
theorem skipList_sorted [Std.TransCmp cmp] (items : List (Nat × Key))
    (hheight : ∀ p ∈ items, 0 < p.1 ∧ p.1 ≤ kMaxHeight)
    (hnew : items.Pairwise fun p q => cmp q.2 p.2 ≠ .eq) (target : Key) :
    (∃ order, Visits ((build cmp items).next 0) 0 order ∧
        (order.filterMap (build cmp items).key?).Perm (items.map Prod.snd) ∧
        (order.filterMap (build cmp items).key?).Pairwise fun k l => cmp k l = .lt) ∧
      ((build cmp items).contains cmp target = true ↔ ∃ p ∈ items, cmp target p.2 = .eq) ∧
      (∀ k, (build cmp items).seek cmp target = some k →
        k ∈ items.map Prod.snd ∧ cmp k target ≠ .lt ∧
          ∀ p ∈ items, cmp p.2 target ≠ .lt → cmp p.2 k ≠ .lt) ∧
      ((build cmp items).seek cmp target = none ↔ ∀ p ∈ items, cmp p.2 target = .lt) ∧
      (build cmp items).maxHeight ≤ kMaxHeight := by
  obtain ⟨order, height, h⟩ := build_ordered items (fun p hp => (hheight p hp).1) hnew
  have hkeys := build_keys cmp items
  refine ⟨⟨order, ?_, ?_, ?_⟩, ?_, ?_, ?_, ?_⟩
  · have hv := h.visits 0
    rwa [List.filter_eq_self.mpr fun i hi => by simpa using h.pos i hi] at hv
  · refine (h.nodes.filterMap _).trans (List.Perm.of_eq ?_)
    rw [← hkeys]
    exact filterMap_key? _
  · refine List.Pairwise.filterMap _ ?_ h.sorted
    exact fun i j hij k hk l hl => hij k hk l hl
  · rw [h.contains_iff, hkeys]
    constructor
    · rintro ⟨k, hk, heq⟩
      obtain ⟨p, hp, rfl⟩ := List.mem_map.mp hk
      exact ⟨p, hp, heq⟩
    · rintro ⟨p, hp, heq⟩
      exact ⟨p.2, List.mem_map_of_mem hp, heq⟩
  · intro k hk
    obtain ⟨hmem, hge, hleast⟩ := h.seek_some hk
    rw [hkeys] at hmem hleast
    exact ⟨hmem, hge, fun p hp => hleast p.2 (List.mem_map_of_mem hp)⟩
  · rw [h.seek_none, hkeys]
    exact List.forall_mem_map
  · exact build_maxHeight items fun p hp => (hheight p hp).2

/-- Three keys out of order, at three heights. -/
theorem skipList_sorted_three :
    (build compare [(2, 5), (1, 3), (3, 9)]).maxHeight ≤ kMaxHeight ∧
      ((build compare [(2, 5), (1, 3), (3, 9)]).seek compare 4 = none ↔
        ∀ p ∈ [(2, 5), (1, 3), (3, 9)], compare p.2 4 = .lt) := by
  have h := @skipList_sorted _ (compare : Nat → Nat → Ordering) _ [(2, 5), (1, 3), (3, 9)] (by decide)
    (by decide) 4
  exact ⟨h.2.2.2.2, h.2.2.2.1⟩

end Triangles.LevelDb.SkipList

/-! A batch of changes is read back as it was put together, and the table in memory that takes it
in answers with the last change of a key. -/

namespace Triangles.LevelDb

/-! Numbers and slices. -/

def varintDigits : Nat → Nat → List UInt8
  | 0, w => [byte w]
  | more + 1, w => if w < 128 then [byte w] else byte (w ||| 128) :: varintDigits more (w >>> 7)

theorem encodeVarint32_eq (v : Nat) : encodeVarint32 v = varintDigits 4 v := by
  simp only [encodeVarint32, varintDigits, ← Nat.shiftRight_add]
  have h7 : v >>> 7 < 128 ↔ v < 1 <<< 14 := by
    rw [Nat.shiftRight_eq_div_pow, Nat.div_lt_iff_lt_mul (by decide)]
    exact Iff.rfl
  have h14 : v >>> 14 < 128 ↔ v < 1 <<< 21 := by
    rw [Nat.shiftRight_eq_div_pow, Nat.div_lt_iff_lt_mul (by decide)]
    exact Iff.rfl
  have h21 : v >>> 21 < 128 ↔ v < 1 <<< 28 := by
    rw [Nat.shiftRight_eq_div_pow, Nat.div_lt_iff_lt_mul (by decide)]
    exact Iff.rfl
  simp only [h7, h14, h21, Nat.reduceAdd, Nat.reduceShiftLeft]
  split_ifs <;> rfl

theorem marked_digit (w : Nat) :
    (byte (w ||| 128)).toNat &&& 128 ≠ 0 ∧ (byte (w ||| 128)).toNat &&& 127 = w % 128 := by
  have hbyte : (byte (w ||| 128)).toNat = w % 256 ||| 128 := by
    simp only [byte, UInt8.toNat_ofNat']
    exact Nat.or_mod_two_pow
  rw [hbyte]
  constructor
  · intro hzero
    have hbit := congrArg (Nat.testBit · 7) hzero
    have h128 : Nat.testBit 128 7 = true := by decide
    simp [Nat.testBit_and, Nat.testBit_or, h128] at hbit
  · have hlow : (w % 256 ||| 128) &&& 127 = (w % 256 ||| 128) % 128 :=
      Nat.and_two_pow_sub_one_eq_mod _ 7
    have hor : (w % 256 ||| 128) % 128 = w % 256 % 128 ||| 128 % 128 :=
      Nat.or_mod_two_pow (n := 7)
    rw [hlow, hor, Nat.mod_self, Nat.or_zero]
    omega

theorem plain_digit {w : Nat} (h : w < 128) : (byte w).toNat = w ∧ w &&& 128 = 0 := by
  constructor
  · simp only [byte, UInt8.toNat_ofNat']
    omega
  · apply Nat.eq_of_testBit_eq
    intro i
    rw [Nat.testBit_and, show (128 : Nat) = 2 ^ 7 from rfl, Nat.testBit_two_pow]
    by_cases hi : 7 = i
    · have hbit : w.testBit i = false := Nat.testBit_lt_two_pow (by rw [← hi]; exact h)
      simp [hbit]
    · simp [hi]

theorem or_digit {result shift d : Nat} (hr : result < 2 ^ shift) (hd : d * 2 ^ shift < 2 ^ 32) :
    result ||| (d <<< shift) % 2 ^ 32 = result + d * 2 ^ shift := by
  rw [Nat.shiftLeft_eq, Nat.mod_eq_of_lt hd, ← Nat.shiftLeft_eq, Nat.or_comm,
    ← Nat.shiftLeft_add_eq_or_of_lt hr, Nat.add_comm]

theorem varint32Rounds_digits (more : Nat) {shift result w : Nat} (rest : List UInt8)
    (hr : result < 2 ^ shift) (hfit : w * 2 ^ shift < 2 ^ 32) (hw : w < 128 ^ (more + 1)) :
    varint32Rounds (more + 1) shift result (varintDigits more w ++ rest) =
      some (result + w * 2 ^ shift, rest) := by
  induction more generalizing shift result w with
  | zero =>
    obtain ⟨hdigit, hmark⟩ := plain_digit (w := w) (by simpa using hw)
    simp only [varintDigits, List.singleton_append, varint32Rounds, hdigit, hmark, ne_eq,
      not_true_eq_false, if_false, or_digit hr hfit]
  | succ more ih =>
    rw [varintDigits]
    by_cases hlast : w < 128
    · obtain ⟨hdigit, hmark⟩ := plain_digit hlast
      simp only [hlast, if_true, List.singleton_append, varint32Rounds, hdigit, hmark, ne_eq,
        not_true_eq_false, if_false, or_digit hr hfit]
    · obtain ⟨hmark, hdigit⟩ := marked_digit w
      have hlow : w % 128 * 2 ^ shift < 2 ^ 32 :=
        lt_of_le_of_lt (Nat.mul_le_mul_right _ (Nat.mod_le w 128)) hfit
      have hsplit : w % 128 * 2 ^ shift + w / 128 * 2 ^ (shift + 7) = w * 2 ^ shift := by
        conv_rhs => rw [← Nat.mod_add_div w 128]
        rw [Nat.pow_add]
        ring
      have hhigh : w / 128 * 2 ^ (shift + 7) < 2 ^ 32 := by omega
      have hresult : result + w % 128 * 2 ^ shift < 2 ^ (shift + 7) := by
        have := Nat.mul_le_mul_right (2 ^ shift) (Nat.le_of_lt_succ (Nat.mod_lt w (y := 128) (by decide)))
        rw [Nat.pow_add]
        omega
      have hdigits : w / 128 < 128 ^ (more + 1) := by
        rw [Nat.div_lt_iff_lt_mul (by decide), ← Nat.pow_succ]
        exact hw
      have hstep := ih hresult hhigh hdigits
      rw [Nat.add_assoc, hsplit] at hstep
      simp only [hlast, if_false, List.cons_append, varint32Rounds, hmark, ne_eq,
        not_false_eq_true, if_true, hdigit, or_digit hr hlow, Nat.shiftRight_eq_div_pow]
      exact hstep

theorem getVarint32_encode {v : Nat} (h : v < 2 ^ 32) (rest : List UInt8) :
    getVarint32 (encodeVarint32 v ++ rest) = some (v, rest) := by
  have hread := @varint32Rounds_digits 4 0 0 v rest (by decide) (by simpa using h) (by omega)
  rw [getVarint32, encodeVarint32_eq, hread]
  simp

theorem getLengthPrefixedSlice_put {value : List UInt8} (h : value.length < 2 ^ 32)
    (rest : List UInt8) :
    getLengthPrefixedSlice (putLengthPrefixedSlice value ++ rest) = some (value, rest) := by
  unfold getLengthPrefixedSlice putLengthPrefixedSlice
  rw [Nat.mod_eq_of_lt h, List.append_assoc, getVarint32_encode h]
  simp

/-! Batches. -/

/-- A change whose key and value have lengths of 32 bits, also with a tag at the key's end. -/
def BatchOp.Small : BatchOp → Prop
  | .put key value => key.length + 8 < 2 ^ 32 ∧ value.length < 2 ^ 32
  | .delete key => key.length + 8 < 2 ^ 32

def encodeOp : BatchOp → List UInt8
  | .put key value => kTypeValue :: (putLengthPrefixedSlice key ++ putLengthPrefixedSlice value)
  | .delete key => kTypeDeletion :: putLengthPrefixedSlice key

theorem nextOp_encode {op : BatchOp} (h : op.Small) (rest : List UInt8) :
    ∃ tag input, encodeOp op ++ rest = tag :: input ∧ WriteBatch.nextOp tag input = .ok (op, rest) := by
  cases op with
  | put key value =>
    obtain ⟨hkey, hvalue⟩ := h
    have hkey' : key.length < 2 ^ 32 := by omega
    refine ⟨_, _, rfl, ?_⟩
    change WriteBatch.nextOp kTypeValue
      (putLengthPrefixedSlice key ++ putLengthPrefixedSlice value ++ rest) = _
    rw [List.append_assoc]
    simp [WriteBatch.nextOp, getLengthPrefixedSlice_put hkey', getLengthPrefixedSlice_put hvalue]
  | delete key =>
    have hkey : key.length < 2 ^ 32 := by
      have : key.length + 8 < 2 ^ 32 := h
      omega
    refine ⟨_, _, rfl, ?_⟩
    simp [WriteBatch.nextOp, getLengthPrefixedSlice_put hkey, kTypeValue, kTypeDeletion]

/-- A batch holds these changes, from this sequence on. -/
def Holds (b : WriteBatch) (seq : Nat) (ops : List BatchOp) : Prop :=
  b.rep_ = wordBytes 8 seq ++ (wordBytes 4 ops.length ++ ops.flatMap encodeOp)

theorem holds_clear : Holds WriteBatch.clear 0 [] := rfl

section Holds

variable {b : WriteBatch} {seq : Nat} {ops : List BatchOp}

theorem Holds.count (h : Holds b seq ops) (hn : ops.length < 2 ^ 31) : b.count = ops.length := by
  have hdrop : (b.rep_.drop 8).take 4 = wordBytes 4 ops.length := by
    rw [h, List.drop_left' (by simp), List.take_left' (by simp)]
  have hword : ops.length < 256 ^ 4 := by omega
  have hvalue : leValue ((b.rep_.drop 8).take 4) = ops.length := by
    rw [hdrop, leValue_wordBytes, Nat.mod_eq_of_lt hword]
  unfold WriteBatch.count
  rw [hvalue]
  apply Int.bmod_eq_of_le <;> omega

theorem Holds.sequence (h : Holds b seq ops) (hseq : seq < 2 ^ 64) : b.sequence = seq := by
  rw [WriteBatch.sequence, h, List.take_left' (by simp), leValue_wordBytes]
  exact Nat.mod_eq_of_lt hseq

theorem Holds.setSequence (h : Holds b seq ops) (seq' : Nat) : Holds (b.setSequence seq') seq' ops := by
  unfold Holds WriteBatch.setSequence
  rw [h, List.drop_left' (by simp)]

theorem Holds.extend (h : Holds b seq ops) (more : List BatchOp) {n : Int}
    (hn : n = ops.length + more.length) (hfit : ops.length + more.length < 2 ^ 31) :
    Holds ⟨(b.setCount n).rep_ ++ more.flatMap encodeOp⟩ seq (ops ++ more) := by
  have h12 : (12 : Nat) = 8 + 4 := rfl
  have hword : (n % 2 ^ 32).toNat = ops.length + more.length := by omega
  unfold Holds WriteBatch.setCount
  rw [h, List.take_left' (by simp), hword, h12, ← List.drop_drop, List.drop_left' (by simp),
    List.drop_left' (by simp), List.length_append, List.flatMap_append]
  simp

theorem Holds.change (h : Holds b seq ops) (op : BatchOp) (hfit : ops.length + 1 < 2 ^ 31) :
    Holds (b.change op) seq (ops ++ [op]) := by
  have hcount := h.count (by omega)
  have hext := h.extend [op] (n := b.count + 1) (by simp [hcount]) (by simpa using hfit)
  cases op <;> simpa [WriteBatch.change, WriteBatch.put, WriteBatch.delete, encodeOp] using hext

theorem Holds.append {src : WriteBatch} {seq' : Nat} {more : List BatchOp} (h : Holds b seq ops)
    (hsrc : Holds src seq' more) (hfit : ops.length + more.length < 2 ^ 31) :
    Holds (b.append src) seq (ops ++ more) := by
  have hcount := h.count (by omega)
  have hmore := hsrc.count (by omega)
  have hrest : src.rep_.drop kHeader = more.flatMap encodeOp := by
    rw [hsrc, show kHeader = 8 + 4 from rfl, ← List.drop_drop, List.drop_left' (by simp),
      List.drop_left' (by simp)]
  have hext := h.extend more (n := b.count + src.count) (by rw [hcount, hmore]) hfit
  rwa [← hrest] at hext

theorem iterateLoop_flatMap {σ : Type} (handler : σ → BatchOp → σ) (rounds found : Nat) (s : σ)
    (hsmall : ∀ op ∈ ops, op.Small) (hrounds : (ops.flatMap encodeOp).length ≤ rounds) :
    WriteBatch.iterateLoop handler rounds (ops.flatMap encodeOp) found s =
      (none, found + ops.length, ops.foldl handler s) := by
  induction ops generalizing rounds found s with
  | nil => cases rounds <;> simp [WriteBatch.iterateLoop]
  | cons op ops ih =>
    obtain ⟨tag, input, htag, hnext⟩ := nextOp_encode (hsmall op (by simp)) (ops.flatMap encodeOp)
    rw [List.flatMap_cons] at hrounds ⊢
    have hlen : (ops.flatMap encodeOp).length < (encodeOp op ++ ops.flatMap encodeOp).length := by
      rw [List.length_append]
      cases op <;> simp [encodeOp]
    obtain ⟨rounds, rfl⟩ : ∃ m, rounds = m + 1 := ⟨rounds - 1, by omega⟩
    rw [htag, WriteBatch.iterateLoop, hnext]
    dsimp only
    rw [ih rounds (found + 1) _ (fun op' hop' => hsmall op' (by simp [hop'])) (by omega)]
    simp only [List.length_cons, List.foldl_cons]
    congr 2
    omega

/-- A handler is told the changes in order, and the batch is found whole. -/
theorem Holds.iterate (h : Holds b seq ops) (hsmall : ∀ op ∈ ops, op.Small)
    (hn : ops.length < 2 ^ 31) {σ : Type} (handler : σ → BatchOp → σ) (s : σ) :
    b.iterate handler s = (.ok, ops.foldl handler s) := by
  have hlen : ¬ b.rep_.length < kHeader := by
    rw [h]
    simp [kHeader]
    omega
  have hrest : b.rep_.drop kHeader = ops.flatMap encodeOp := by
    rw [h, show kHeader = 8 + 4 from rfl, ← List.drop_drop, List.drop_left' (by simp),
      List.drop_left' (by simp)]
  unfold WriteBatch.iterate
  rw [if_neg hlen]
  simp only [hrest, iterateLoop_flatMap handler _ 0 s hsmall le_rfl, h.count hn]
  simp

end Holds

end Triangles.LevelDb
