import Mathlib.Algebra.Order.Ring.Nat
import Triangles.Lib.Components
import Triangles.Lib.Outcome
import Triangles.Lib.Slots
import Triangles.Model.Accounts
import Triangles.Proofs.Balance

/-! The returned groups are the classes of the addresses that groupings link. Each address points to
the one live group that has it. -/

namespace Triangles

open Components
open Std (ExtTreeMap)

namespace GroupState

variable {s s' : GroupState} {grouping : Grouping} {alloc : GroupHeap → Nat} {a : CTxDestination}

/-- The pointers lead to live groups, and an address points to the group that has it. -/
structure Sound (s : GroupState) : Prop where
  live : ∀ p ∈ s.uniqueGroupings, p ∈ s.heap
  setmap : ∀ a p, s.setmap a = some p ↔
    p ∈ s.uniqueGroupings ∧ ∃ group, s.heap[p]? = some group ∧ a ∈ group

def blocks (s : GroupState) : Finset Grouping :=
  s.uniqueGroupings.biUnion fun p =>
    match s.heap[p]? with
    | none => ∅
    | some group => {group}

theorem mem_blocks {group : Grouping} :
    group ∈ s.blocks ↔ ∃ p ∈ s.uniqueGroupings, s.heap[p]? = some group := by
  rw [blocks, Finset.mem_biUnion]
  refine exists_congr fun p => and_congr_right fun _ => ?_
  cases s.heap[p]? with
  | none => simp
  | some other =>
    rw [Finset.mem_singleton, Option.some.injEq]
    exact eq_comm

/-- The groups that are hit are those that have an address of the grouping. -/
theorem Sound.mem_hits (h : s.Sound) {p : Nat} : p ∈ s.hits grouping ↔
    p ∈ s.uniqueGroupings ∧ ∃ group, s.heap[p]? = some group ∧ ∃ a ∈ group, a ∈ grouping := by
  rw [hits, Finset.mem_biUnion]
  constructor
  · rintro ⟨a, ha, hp⟩
    cases hmap : s.setmap a with
    | none =>
      rw [hmap] at hp
      exact absurd hp (Finset.notMem_empty p)
    | some q =>
      rw [hmap, Finset.mem_singleton] at hp
      subst hp
      obtain ⟨hmem, group, hgroup, hag⟩ := (h.setmap a p).mp hmap
      exact ⟨hmem, group, hgroup, a, hag, ha⟩
  · rintro ⟨hmem, group, hgroup, a, hag, ha⟩
    refine ⟨a, ha, ?_⟩
    rw [(h.setmap a p).mpr ⟨hmem, group, hgroup, hag⟩]
    exact Finset.mem_singleton_self p

/-! Merging. -/

/-- What the loop over the groups that are hit has made: the merged one has their addresses, and
they are gone. -/
theorem absorbHits_ok {merged : Nat} {l : List Nat} (hl : l.Nodup) (hmerged : merged ∉ l)
    (hlive : ∀ p ∈ l, p ∈ s.heap) {group : Grouping} (hgroup : s.heap[merged]? = some group) :
    ∃ s' group', l.foldlM (absorbHit merged) s = some s' ∧ s'.heap[merged]? = some group' ∧
      (∀ a, a ∈ group' ↔ a ∈ group ∨ ∃ p ∈ l, ∃ other, s.heap[p]? = some other ∧ a ∈ other) ∧
      (∀ p, p ≠ merged → p ∉ l → s'.heap[p]? = s.heap[p]?) ∧
      (∀ p, p ∈ s'.uniqueGroupings ↔ p ∈ s.uniqueGroupings ∧ p ∉ l) ∧ s'.setmap = s.setmap := by
  induction l generalizing s group with
  | nil => exact ⟨s, group, rfl, hgroup, by simp, by simp, by simp, rfl⟩
  | cons hit l ih =>
    obtain ⟨hhit, hl⟩ := List.nodup_cons.mp hl
    rw [List.mem_cons, not_or] at hmerged
    obtain ⟨hne, hmerged⟩ := hmerged
    obtain ⟨other, hother⟩ := Option.isSome_iff_exists.mp
      (ExtTreeMap.mem_iff_isSome_getElem?.mp (hlive hit List.mem_cons_self))
    let m : GroupState := { s with
      heap := (s.heap.insert merged (group ∪ other)).erase hit
      uniqueGroupings := s.uniqueGroupings.erase hit }
    have hround : absorbHit merged s hit = some m := by
      rw [absorbHit, hgroup, hother]
      rfl
    have hheap : ∀ p, p ≠ hit → m.heap[p]? = if merged = p then some (group ∪ other) else s.heap[p]? := by
      intro p hp
      have herase : m.heap[p]? = (s.heap.insert merged (group ∪ other))[p]? := by
        rw [ExtTreeMap.getElem?_erase, if_neg]
        exact fun heq => hp (Std.LawfulEqCmp.compare_eq_iff_eq.mp heq).symm
      rw [herase, Slots.getElem?_insert_eq]
    have hmgroup : m.heap[merged]? = some (group ∪ other) := by
      rw [hheap merged hne, if_pos rfl]
    have hrest : ∀ p ∈ l, m.heap[p]? = s.heap[p]? := by
      intro p hp
      have hne : p ≠ hit := fun heq => hhit (heq ▸ hp)
      have hne' : merged ≠ p := fun heq => hmerged (heq ▸ hp)
      rw [hheap p hne, if_neg hne']
    have hmlive : ∀ p ∈ l, p ∈ m.heap := by
      intro p hp
      rw [ExtTreeMap.mem_iff_isSome_getElem?, hrest p hp, ← ExtTreeMap.mem_iff_isSome_getElem?]
      exact hlive p (List.mem_cons_of_mem hit hp)
    obtain ⟨s', group', hrun, hgroup', hmem, hheap', hunique, hsetmap⟩ :=
      ih hl hmerged hmlive hmgroup
    refine ⟨s', group', ?_, hgroup', fun a => ?_, fun p hp hpl => ?_, fun p => ?_, hsetmap⟩
    · rw [List.foldlM_cons, hround]
      exact hrun
    · rw [hmem, Finset.mem_union, or_assoc]
      refine or_congr_right ?_
      constructor
      · rintro (ha | ⟨p, hp, q, hq, ha⟩)
        · exact ⟨hit, List.mem_cons_self, other, hother, ha⟩
        · exact ⟨p, List.mem_cons_of_mem hit hp, q, (hrest p hp).symm.trans hq, ha⟩
      · rintro ⟨p, hp, q, hq, ha⟩
        rcases List.mem_cons.mp hp with rfl | hp
        · rw [hother] at hq
          exact .inl (Option.some.inj hq ▸ ha)
        · exact .inr ⟨p, hp, q, (hrest p hp).trans hq, ha⟩
    · rw [List.mem_cons, not_or] at hpl
      rw [hheap' p hp hpl.2, hheap p hpl.1, if_neg (Ne.symm hp)]
    · rw [hunique, List.mem_cons, not_or, Finset.mem_erase]
      tauto

/-- The state `m` after the groups that are hit are merged into the one at `new`. -/
structure Merged (s m : GroupState) (grouping group : Grouping) (new : Nat) : Prop where
  fresh : ∀ p ∈ s.uniqueGroupings, p ≠ new
  found : m.heap[new]? = some group
  addresses : ∀ a, a ∈ group ↔
    a ∈ grouping ∨ ∃ p ∈ s.hits grouping, ∃ other, s.heap[p]? = some other ∧ a ∈ other
  kept : ∀ p ∈ s.uniqueGroupings, p ∉ s.hits grouping → m.heap[p]? = s.heap[p]?
  left : ∀ p, p ∈ m.uniqueGroupings ↔ p ∈ s.uniqueGroupings ∧ p ∉ s.hits grouping
  setmap : m.setmap = s.setmap

def entered (m : GroupState) (new : Nat) (group : Grouping) : GroupState :=
  { m with
    uniqueGroupings := insert new m.uniqueGroupings
    setmap := fun address => if address ∈ group then some new else m.setmap address }

theorem Sound.addGrouping_merged (h : s.Sound) (halloc : alloc s.heap ∉ s.heap) :
    ∃ m group, Merged s m grouping group (alloc s.heap) ∧
      addGrouping alloc s grouping = some (m.entered (alloc s.heap) group) := by
  have hnew : ∀ p ∈ s.uniqueGroupings, p ≠ alloc s.heap := fun p hp heq => halloc (heq ▸ h.live p hp)
  have hsame : ∀ p, p ≠ alloc s.heap → (s.heap.insert (alloc s.heap) grouping)[p]? = s.heap[p]? := by
    intro p hp
    rw [Slots.getElem?_insert_eq, if_neg (Ne.symm hp)]
  have hmem : ∀ p, p ∈ (s.hits grouping).sort (· ≤ ·) ↔ p ∈ s.hits grouping := fun p =>
    Finset.mem_sort _
  have hunique : ∀ p ∈ (s.hits grouping).sort (· ≤ ·), p ∈ s.uniqueGroupings := fun p hp =>
    (h.mem_hits.mp ((hmem p).mp hp)).1
  have hmerged : alloc s.heap ∉ (s.hits grouping).sort (· ≤ ·) := fun hp => hnew _ (hunique _ hp) rfl
  let start : GroupState := { s with heap := s.heap.insert (alloc s.heap) grouping }
  have hlive : ∀ p ∈ (s.hits grouping).sort (· ≤ ·), p ∈ start.heap := fun p hp =>
    ExtTreeMap.mem_insert.mpr (.inr (h.live p (hunique p hp)))
  have hfirst : start.heap[alloc s.heap]? = some grouping := ExtTreeMap.getElem?_insert_self
  obtain ⟨m, group, hrun, hgroup, hag, hheap, hleft, hsetmap⟩ :=
    absorbHits_ok (Finset.sort_nodup _ _) hmerged hlive hfirst
  refine ⟨m, group, ⟨hnew, hgroup, fun a => ?_, fun p hp hnot => ?_, fun p => ?_, hsetmap⟩, ?_⟩
  · -- the addresses of the new group, in terms of the state before
    rw [hag]
    refine or_congr_right (exists_congr fun p => ?_)
    rw [hmem]
    refine and_congr_right fun hp => ?_
    rw [hsame p (hnew p (h.mem_hits.mp hp).1)]
  · rw [hheap p (hnew p hp) fun hl => hnot ((hmem p).mp hl), hsame p (hnew p hp)]
  · rw [hleft, hmem]
  · rw [addGrouping]
    change ((s.hits grouping).sort (· ≤ ·)).foldlM (absorbHit (alloc s.heap)) start >>= _ = _
    rw [hrun]
    change m.heap[alloc s.heap]? >>= _ = _
    rw [hgroup]
    rfl

section

variable {m : GroupState} {group : Grouping} {new : Nat}

/-- A group that is left shares no address with the new one. -/
theorem Merged.disjoint (hm : Merged s m grouping group new) (h : s.Sound) {p : Nat} {other : Grouping}
    (hp : p ∈ s.uniqueGroupings) (hnot : p ∉ s.hits grouping) (hother : s.heap[p]? = some other)
    {a : CTxDestination} (hao : a ∈ other) : a ∉ group := by
  intro ha
  rcases (hm.addresses a).mp ha with hag | ⟨q, hq, other', hother', hao'⟩
  · exact hnot (h.mem_hits.mpr ⟨hp, other, hother, a, hao, hag⟩)
  · have hpoints := (h.setmap a p).mpr ⟨hp, other, hother, hao⟩
    rw [(h.setmap a q).mpr ⟨(h.mem_hits.mp hq).1, other', hother', hao'⟩] at hpoints
    exact hnot (Option.some.inj hpoints ▸ hq)

theorem Merged.sound (hm : Merged s m grouping group new) (h : s.Sound) : (m.entered new group).Sound where
  live p hp := by
    rw [ExtTreeMap.mem_iff_isSome_getElem?]
    rcases Finset.mem_insert.mp hp with rfl | hp
    · change (m.heap[p]?).isSome = true
      rw [hm.found]
      rfl
    · obtain ⟨hp, hnot⟩ := (hm.left p).mp hp
      change (m.heap[p]?).isSome = true
      rw [hm.kept p hp hnot, ← ExtTreeMap.mem_iff_isSome_getElem?]
      exact h.live p hp
  setmap a p := by
    have hold : m.setmap a = s.setmap a := congrFun hm.setmap a
    dsimp only [entered]
    by_cases ha : a ∈ group
    · rw [if_pos ha, Option.some.injEq]
      constructor
      · rintro rfl
        exact ⟨Finset.mem_insert_self _ _, group, hm.found, ha⟩
      · rintro ⟨hp, other, hother, hao⟩
        rcases Finset.mem_insert.mp hp with hp | hp
        · exact hp.symm
        · obtain ⟨hp, hnot⟩ := (hm.left p).mp hp
          rw [hm.kept p hp hnot] at hother
          exact absurd ha (hm.disjoint h hp hnot hother hao)
    · rw [if_neg ha, hold, h.setmap]
      constructor
      · rintro ⟨hp, other, hother, hao⟩
        have hnot : p ∉ s.hits grouping := fun hhit =>
          ha ((hm.addresses a).mpr (.inr ⟨p, hhit, other, hother, hao⟩))
        exact ⟨Finset.mem_insert_of_mem ((hm.left p).mpr ⟨hp, hnot⟩), other,
          (hm.kept p hp hnot).trans hother, hao⟩
      · rintro ⟨hp, other, hother, hao⟩
        rcases Finset.mem_insert.mp hp with rfl | hp
        · rw [hm.found] at hother
          exact absurd (Option.some.inj hother ▸ hao) ha
        · obtain ⟨hp, hnot⟩ := (hm.left p).mp hp
          exact ⟨hp, other, (hm.kept p hp hnot).symm.trans hother, hao⟩

theorem Sound.mem_hits_blocks (h : s.Sound) {p : Nat} {other : Grouping} (hp : p ∈ s.uniqueGroupings)
    (hother : s.heap[p]? = some other) :
    p ∈ s.hits grouping ↔ other ∈ Components.hits s.blocks grouping := by
  rw [h.mem_hits, Components.mem_hits, mem_blocks]
  constructor
  · rintro ⟨-, other', hother', hshared⟩
    rw [hother] at hother'
    exact ⟨⟨p, hp, hother⟩, Option.some.inj hother' ▸ hshared⟩
  · rintro ⟨-, hshared⟩
    exact ⟨hp, other, hother, hshared⟩

theorem Merged.group_eq (hm : Merged s m grouping group new) (h : s.Sound) :
    group = grouping ∪ (Components.hits s.blocks grouping).sup id := by
  ext a
  rw [hm.addresses, mem_merged]
  refine or_congr_right ⟨?_, ?_⟩
  · rintro ⟨p, hp, other, hother, hao⟩
    exact ⟨other, (h.mem_hits_blocks (h.mem_hits.mp hp).1 hother).mp hp, hao⟩
  · rintro ⟨other, hother, hao⟩
    obtain ⟨p, hp, hpo⟩ := mem_blocks.mp (Components.mem_hits.mp hother).1
    exact ⟨p, (h.mem_hits_blocks hp hpo).mpr hother, other, hpo, hao⟩

theorem Merged.blocks_eq (hm : Merged s m grouping group new) (h : s.Sound) :
    (m.entered new group).blocks = absorb s.blocks grouping := by
  ext other
  rw [mem_blocks, absorb, ← hm.group_eq h, Finset.mem_insert, Finset.mem_sdiff, mem_blocks]
  constructor
  · rintro ⟨p, hp, hother⟩
    rcases Finset.mem_insert.mp hp with rfl | hp
    · have hgroup := hm.found.symm.trans hother
      exact .inl (Option.some.inj hgroup).symm
    · obtain ⟨hp, hnot⟩ := (hm.left p).mp hp
      have hother' := (hm.kept p hp hnot).symm.trans hother
      exact .inr ⟨⟨p, hp, hother'⟩, fun hhit => hnot ((h.mem_hits_blocks hp hother').mpr hhit)⟩
  · rintro (rfl | ⟨⟨p, hp, hother⟩, hnot⟩)
    · exact ⟨new, Finset.mem_insert_self _ _, hm.found⟩
    · have hnot' : p ∉ s.hits grouping := fun hhit => hnot ((h.mem_hits_blocks hp hother).mp hhit)
      exact ⟨p, Finset.mem_insert_of_mem ((hm.left p).mpr ⟨hp, hnot'⟩), (hm.kept p hp hnot').trans hother⟩

end

/-- One grouping is merged with the groups it hits, whatever address the new group gets that is not
in use. -/
theorem Sound.addGrouping_ok (h : s.Sound) (halloc : alloc s.heap ∉ s.heap) :
    ∃ s', addGrouping alloc s grouping = some s' ∧ s'.Sound ∧ s'.blocks = absorb s.blocks grouping := by
  obtain ⟨m, group, hm, hrun⟩ := h.addGrouping_merged halloc
  exact ⟨_, hrun, hm.sound h, hm.blocks_eq h⟩

theorem Sound.foldlM_ok (halloc : ∀ heap, alloc heap ∉ heap) (h : s.Sound) (l : List Grouping) :
    ∃ s', l.foldlM (addGrouping alloc) s = some s' ∧ s'.Sound ∧ s'.blocks = l.foldl absorb s.blocks := by
  induction l generalizing s with
  | nil => exact ⟨s, rfl, h, rfl⟩
  | cons grouping l ih =>
    obtain ⟨m, hm, hsound, hblocks⟩ : ∃ s', addGrouping alloc s grouping = some s' ∧ s'.Sound ∧
        s'.blocks = absorb s.blocks grouping := h.addGrouping_ok (halloc s.heap)
    obtain ⟨s', hs', hsound', hblocks'⟩ := ih hsound
    refine ⟨s', ?_, hsound', ?_⟩
    · rw [List.foldlM_cons, hm]
      exact hs'
    · rw [hblocks', hblocks, List.foldl_cons]

theorem start_sound : (GroupState.mk ∅ ∅ fun _ => none).Sound where
  live p hp := absurd hp (Finset.notMem_empty p)
  setmap a p := by
    constructor
    · intro h
      cases h
    · rintro ⟨hp, -⟩
      exact absurd hp (Finset.notMem_empty p)

/-- The groups that are returned are those on the heap. -/
theorem Sound.groups_eq (h : s.Sound) : s.groups = some s.blocks := by
  have hall : ∀ l : List Nat, (∀ p ∈ l, p ∈ s.heap) → ∃ groups, (l.mapM fun p => s.heap[p]?) = some groups ∧
      ∀ group, group ∈ groups ↔ ∃ p ∈ l, s.heap[p]? = some group := by
    intro l
    induction l with
    | nil => exact fun _ => ⟨[], rfl, by simp⟩
    | cons p l ih =>
      intro hl
      obtain ⟨group, hgroup⟩ := Option.isSome_iff_exists.mp
        (ExtTreeMap.mem_iff_isSome_getElem?.mp (hl p List.mem_cons_self))
      obtain ⟨groups, hgroups, hmem⟩ := ih fun q hq => hl q (List.mem_cons_of_mem p hq)
      refine ⟨group :: groups, ?_, fun other => ?_⟩
      · rw [List.mapM_cons, hgroup, hgroups]
        rfl
      · rw [List.mem_cons, hmem]
        simp only [List.mem_cons, exists_eq_or_imp, hgroup, Option.some.injEq]
        exact or_congr_left eq_comm
  obtain ⟨groups, hgroups, hmem⟩ := hall (s.uniqueGroupings.sort (· ≤ ·)) fun p hp =>
    h.live p ((Finset.mem_sort _).mp hp)
  rw [GroupState.groups, hgroups]
  refine congrArg some (Finset.ext fun group => ?_)
  rw [List.mem_toFinset, hmem, mem_blocks]
  simp only [Finset.mem_sort]

end GroupState

namespace AccountWallet

variable {w : AccountWallet} {alloc : GroupHeap → Nat} {visit : Finset Grouping → List Grouping}

/-- The outputs that the inputs of a transaction with an own first input spend are there. -/
def Present (w : AccountWallet) : Prop :=
  ∀ e ∈ w.mapWallet.toList, (e.2.tx.vin.head?.map w.isMineIn).getD false = true →
    ∀ txin ∈ e.2.tx.vin, (w.prevOut txin).isSome = true

theorem groupInputs_succeeds {tx : CTransaction}
    (h : ∀ txin ∈ tx.vin, (w.prevOut txin).isSome = true) : ∃ grouping, w.groupInputs tx = some grouping := by
  have hloop : ∀ (l : List CTxIn) (grouping : Grouping), (∀ txin ∈ l, (w.prevOut txin).isSome = true) →
      ∃ grouping', l.foldlM (fun grouping txin => do
        let txout ← w.prevOut txin
        pure (w.groupOut grouping txout)) grouping = some grouping' := by
    intro l
    induction l with
    | nil => exact fun grouping _ => ⟨grouping, rfl⟩
    | cons txin l ih =>
      intro grouping hl
      obtain ⟨txout, hout⟩ := Option.isSome_iff_exists.mp (hl txin List.mem_cons_self)
      rw [List.foldlM_cons, hout]
      exact ih (w.groupOut grouping txout) fun txin' h' => hl txin' (List.mem_cons_of_mem txin h')
  obtain ⟨grouping, hgrouping⟩ := hloop tx.vin ∅ h
  rw [groupInputs, hgrouping]
  exact ⟨_, rfl⟩

/-- With the previous outputs there, all the groupings are collected. -/
theorem collectGroupings_succeeds (h : w.Present) : ∃ groupings, w.collectGroupings = some groupings := by
  have hloop : ∀ (l : List CTransaction) (groupings : Finset Grouping), (∀ tx ∈ l,
      (tx.vin.head?.map w.isMineIn).getD false = true →
        ∀ txin ∈ tx.vin, (w.prevOut txin).isSome = true) →
      ∃ groupings', l.foldlM w.collectTx groupings = some groupings' := by
    intro l
    induction l with
    | nil => exact fun groupings _ => ⟨groupings, rfl⟩
    | cons tx l ih =>
      intro groupings hl
      obtain ⟨groupings', hround⟩ : ∃ groupings', w.collectTx groupings tx = some groupings' := by
        unfold collectTx
        by_cases hown : (tx.vin.head?.map w.isMineIn).getD false = true
        · obtain ⟨grouping, hgrouping⟩ := groupInputs_succeeds (hl tx List.mem_cons_self hown)
          rw [if_pos hown, hgrouping]
          exact ⟨_, rfl⟩
        · rw [if_neg hown]
          exact ⟨_, rfl⟩
      rw [List.foldlM_cons, hround]
      exact ih groupings' fun tx' h' => hl tx' (List.mem_cons_of_mem tx h')
  refine hloop _ ∅ fun tx htx => ?_
  obtain ⟨e, he, rfl⟩ := List.mem_map.mp htx
  exact h e he

/-- The groups that are returned are apart, have the addresses of the groupings, and two addresses
are in one of them exactly when groupings link them. -/
theorem getAddressGroupings_classes (halloc : ∀ heap, alloc heap ∉ heap)
    (hvisit : ∀ groupings grouping, grouping ∈ visit groupings ↔ grouping ∈ groupings)
    (hpresent : w.Present) :
    ∃ groupings ret, w.collectGroupings = some groupings ∧
      w.getAddressGroupings alloc visit = some ret ∧
      (∀ p ∈ ret, ∀ q ∈ ret, p ≠ q → Disjoint p q) ∧
      (∀ a, (∃ p ∈ ret, a ∈ p) ↔ ∃ grouping ∈ groupings, a ∈ grouping) ∧
      ∀ a b, (∃ p ∈ ret, a ∈ p ∧ b ∈ p) ↔
        Relation.TransGen (Linked (groupings : Set Grouping)) a b := by
  obtain ⟨groupings, hgroupings⟩ := collectGroupings_succeeds hpresent
  obtain ⟨s, hs, hsound, hblocks⟩ :=
    GroupState.start_sound.foldlM_ok halloc (visit groupings)
  have hempty : (GroupState.mk ∅ ∅ fun _ => none).blocks = ∅ := rfl
  have hsets : (∅ : Set Grouping) ∪ {grouping | grouping ∈ visit groupings} = groupings := by
    ext grouping
    simp [hvisit]
  have hclasses : Classes (groupings : Set Grouping) s.blocks := by
    rw [hblocks, hempty, ← hsets]
    exact classes_empty.foldl (visit groupings)
  refine ⟨groupings, s.blocks, hgroupings, ?_, hclasses.disjoint, fun a => hclasses.covers,
    fun a b => hclasses.same a b⟩
  rw [getAddressGroupings, hgroupings]
  change (visit groupings).foldlM (GroupState.addGrouping alloc) ⟨∅, ∅, fun _ => none⟩ >>= _ = _
  rw [hs]
  exact hsound.groups_eq

end AccountWallet

namespace Sample

def nextAddress (heap : GroupHeap) : Nat := heap.keys.sum + 1

theorem nextAddress_free (heap : GroupHeap) : nextAddress heap ∉ heap := by
  intro hmem
  have hle := List.single_le_sum (fun n _ => Nat.zero_le n) _ (ExtTreeMap.mem_keys.mpr hmem)
  rw [nextAddress] at hle
  omega

end Sample

namespace AccountWallet

theorem stakeWallet_present : Sample.stakeWallet.Present := by
  have hlist : Sample.stakeWallet.mapWallet.toList = [(5, Sample.incoming), (6, Sample.staked)] := rfl
  intro e he hown txin hin
  rw [hlist] at he
  simp only [List.mem_cons, List.not_mem_nil, or_false] at he
  rcases he with rfl | rfl
  · exact absurd hown (by decide)
  · obtain rfl := List.mem_singleton.mp hin
    decide

theorem stakeWallet_groupings :
    ∃ groupings ret, Sample.stakeWallet.collectGroupings = some groupings ∧
      Sample.stakeWallet.getAddressGroupings Sample.nextAddress Finset.toList = some ret ∧
      (∀ p ∈ ret, ∀ q ∈ ret, p ≠ q → Disjoint p q) ∧
      (∀ a, (∃ p ∈ ret, a ∈ p) ↔ ∃ grouping ∈ groupings, a ∈ grouping) ∧
      ∀ a b, (∃ p ∈ ret, a ∈ p ∧ b ∈ p) ↔
        Relation.TransGen (Linked (groupings : Set Grouping)) a b :=
  getAddressGroupings_classes Sample.nextAddress_free (fun _ _ => Finset.mem_toList)
    stakeWallet_present

end AccountWallet

end Triangles
