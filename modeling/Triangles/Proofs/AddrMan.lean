import Mathlib.Data.List.GetD
import Triangles.Lib.Assoc
import Triangles.Proofs.AddrTables

/-! What every call of the address manager keeps: the lists of its records and its tables. -/

namespace Triangles

open Roster

namespace CAddrInfo

/-- A record but for its place in the random order. -/
def core (info : CAddrInfo) : CAddrInfo := { info with nRandomPos := 0 }

def seat (info : CAddrInfo) : Bool × Int := (info.fInTried, info.nRefCount)

end CAddrInfo

/-- Which times a record may hold: of the last try and of the last success, of a tried record or
another. -/
structure Times where
  allowed : Int → Int → Bool → Prop
  fresh : allowed 0 0 false
  back : ∀ {nLastTry nLastSuccess}, allowed nLastTry nLastSuccess true →
    allowed nLastTry nLastSuccess false

def CAddrInfo.Timed (T : Times) (info : CAddrInfo) : Prop :=
  T.allowed info.nLastTry info.nLastSuccess info.fInTried

def Times.checked : Times where
  allowed nLastTry nLastSuccess fInTried :=
    0 ≤ nLastTry ∧ 0 ≤ nLastSuccess ∧ (fInTried = true → nLastSuccess ≠ 0)
  fresh := ⟨le_refl _, le_refl _, nofun⟩
  back h := ⟨h.1, h.2.1, nofun⟩

namespace CAddrMan

def place (s : CAddrMan) (nId : Nat) : Option Nat :=
  (s.mapInfo.lookup nId).map CAddrInfo.nRandomPos

def netAddr (s : CAddrMan) (nId : Nat) : Option CNetAddr :=
  (s.mapInfo.lookup nId).map fun info => info.toCNetAddr

def seat (s : CAddrMan) (nId : Nat) : Option (Bool × Int) :=
  (s.mapInfo.lookup nId).map CAddrInfo.seat

/-- The records, their order and the index of their addresses agree. -/
structure Listed (T : Times) (s : CAddrMan) : Prop where
  indexed : Indexed s.vRandom s.place
  named : ∀ a nId, s.mapAddr.lookup a = some nId ↔ s.netAddr nId = some a
  below : ∀ {nId info}, s.mapInfo.lookup nId = some info → nId < s.nIdCount
  timed : ∀ {nId info}, s.mapInfo.lookup nId = some info → info.Timed T

structure Kept (T : Times) (m : Motion) (s : CAddrMan) : Prop where
  listed : Listed T s
  tables : Tables m s.seat s.vvTried s.vvNew s.nTried

/-- The counters add up to the number of addresses. -/
def Counted (s : CAddrMan) : Prop := (s.vRandom.length : Int) = s.nTried + s.nNew

variable {T : Times} {m : Motion} {s : CAddrMan}

/-! Changing one record. -/

section Modify

variable (s) (nId : Nat) (f : CAddrInfo → CAddrInfo)

theorem modifyInfo_eq : s.modifyInfo nId f =
    { s with mapInfo := (s.modifyInfo nId f).mapInfo } := by
  unfold modifyInfo
  split <;> rfl

@[simp] theorem modifyInfo_vRandom : (s.modifyInfo nId f).vRandom = s.vRandom := by
  rw [modifyInfo_eq]

@[simp] theorem modifyInfo_mapAddr : (s.modifyInfo nId f).mapAddr = s.mapAddr := by
  rw [modifyInfo_eq]

@[simp] theorem modifyInfo_nIdCount : (s.modifyInfo nId f).nIdCount = s.nIdCount := by
  rw [modifyInfo_eq]

@[simp] theorem modifyInfo_vvTried : (s.modifyInfo nId f).vvTried = s.vvTried := by
  rw [modifyInfo_eq]

@[simp] theorem modifyInfo_vvNew : (s.modifyInfo nId f).vvNew = s.vvNew := by
  rw [modifyInfo_eq]

@[simp] theorem modifyInfo_nTried : (s.modifyInfo nId f).nTried = s.nTried := by
  rw [modifyInfo_eq]

@[simp] theorem modifyInfo_nNew : (s.modifyInfo nId f).nNew = s.nNew := by
  rw [modifyInfo_eq]

theorem lookup_modifyInfo (n : Nat) : (s.modifyInfo nId f).mapInfo.lookup n =
    if n = nId then (s.mapInfo.lookup nId).map f else s.mapInfo.lookup n := by
  unfold modifyInfo
  split
  · rename_i h
    split
    · rename_i hn
      rw [hn, h]
      rfl
    · rfl
  · rename_i info h
    rw [Assoc.lookup_insert_eq, h]
    rfl

/-- A view of the records that `f` does not touch. -/
theorem map_modifyInfo {β : Type} (g : CAddrInfo → β) (hg : ∀ info, g (f info) = g info) (n : Nat) :
    ((s.modifyInfo nId f).mapInfo.lookup n).map g = (s.mapInfo.lookup n).map g := by
  rw [lookup_modifyInfo]
  split
  · rename_i hn
    rw [hn, Option.map_map]
    congr 1
    exact funext hg
  · rfl

end Modify

theorem Counted.modify (h : Counted s) (nId : Nat) (f : CAddrInfo → CAddrInfo) :
    Counted (s.modifyInfo nId f) := by
  simpa [Counted] using h

/-- A record may change in what the lists do not look at. -/
theorem Listed.modify (h : Listed T s) (nId : Nat) {f : CAddrInfo → CAddrInfo}
    (hpos : ∀ info, (f info).nRandomPos = info.nRandomPos)
    (haddr : ∀ info, (f info).toCNetAddr = info.toCNetAddr)
    (ht : ∀ info, s.mapInfo.lookup nId = some info → (f info).Timed T) :
    Listed T (s.modifyInfo nId f) where
  indexed := by
    rw [modifyInfo_vRandom]
    exact h.indexed.congr (map_modifyInfo s nId f _ hpos)
  named := by
    intro a n
    rw [modifyInfo_mapAddr, netAddr, map_modifyInfo s nId f (fun i => i.toCNetAddr) haddr]
    exact h.named a n
  below := by
    intro n info hn
    rw [modifyInfo_nIdCount]
    rw [lookup_modifyInfo] at hn
    split at hn
    · rename_i he
      obtain ⟨old, ho, -⟩ := Option.map_eq_some_iff.mp hn
      exact he ▸ h.below ho
    · exact h.below hn
  timed := by
    intro n info hn
    rw [lookup_modifyInfo] at hn
    split at hn
    · obtain ⟨old, ho, rfl⟩ := Option.map_eq_some_iff.mp hn
      exact ht old ho
    · exact h.timed hn

/-- The lists do not look at the tables. -/
theorem Listed.of_eq {s' : CAddrMan} (h : Listed T s) (hinfo : s'.mapInfo = s.mapInfo)
    (haddr : s'.mapAddr = s.mapAddr) (hrandom : s'.vRandom = s.vRandom)
    (hid : s'.nIdCount = s.nIdCount) : Listed T s' where
  indexed := by
    rw [hrandom]
    refine h.indexed.congr fun n => ?_
    rw [place, hinfo, place]
  named := by
    rw [haddr]
    intro a n
    rw [netAddr, hinfo]
    exact h.named a n
  below := by
    rw [hinfo, hid]
    exact h.below
  timed := by
    rw [hinfo]
    exact h.timed

theorem seat_modifyInfo_same (s : CAddrMan) (nId : Nat) {f : CAddrInfo → CAddrInfo}
    (hseat : ∀ info, (f info).seat = info.seat) : (s.modifyInfo nId f).seat = s.seat :=
  funext (map_modifyInfo s nId f _ hseat)

/-- A record may change in what neither the lists nor the tables look at. -/
theorem Kept.modify (h : Kept T m s) (nId : Nat) {f : CAddrInfo → CAddrInfo}
    (hpos : ∀ info, (f info).nRandomPos = info.nRandomPos)
    (haddr : ∀ info, (f info).toCNetAddr = info.toCNetAddr)
    (hseat : ∀ info, (f info).seat = info.seat)
    (ht : ∀ info, s.mapInfo.lookup nId = some info → (f info).Timed T) :
    Kept T m (s.modifyInfo nId f) where
  listed := h.listed.modify nId hpos haddr ht
  tables := by
    rw [seat_modifyInfo_same s nId hseat, modifyInfo_vvTried, modifyInfo_vvNew, modifyInfo_nTried]
    exact h.tables

theorem seat_modifyInfo (s : CAddrMan) {nId : Nat} {info : CAddrInfo} (f : CAddrInfo → CAddrInfo)
    (hl : s.mapInfo.lookup nId = some info) :
    (s.modifyInfo nId f).seat = Function.update s.seat nId (some (f info).seat) := by
  funext n
  rw [seat, lookup_modifyInfo, Function.update_apply, hl]
  split
  · rfl
  · rfl

/-! Exchanging two places of the random order. -/

theorem map_of_core {i j : Option CAddrInfo} (h : i.map CAddrInfo.core = j.map CAddrInfo.core)
    {β : Type} (g : CAddrInfo → β) (hg : ∀ info, g info.core = g info) : i.map g = j.map g := by
  have he : i.map (fun info => g info.core) = j.map (fun info => g info.core) := by
    simpa [Option.map_map, Function.comp_def] using congrArg (Option.map g) h
  simpa only [hg] using he

/-- What a swap does: the order is another one, in which the records know their places, and
nothing else changes. -/
structure Swapped (s s' : CAddrMan) : Prop where
  eq : s' = { s with mapInfo := s'.mapInfo, vRandom := s'.vRandom }
  indexed : Indexed s'.vRandom s'.place
  length : s'.vRandom.length = s.vRandom.length
  core : ∀ n, (s'.mapInfo.lookup n).map CAddrInfo.core = (s.mapInfo.lookup n).map CAddrInfo.core

theorem Swapped.refl (h : Indexed s.vRandom s.place) : Swapped s s := ⟨rfl, h, rfl, fun _ => rfl⟩

theorem swapRandom_spec (h : Indexed s.vRandom s.place) {i j : Nat} (hi : i < s.vRandom.length)
    (hj : j < s.vRandom.length) :
    Swapped s (s.swapRandom i j) ∧ (s.swapRandom i j).vRandom[j]? = s.vRandom[i]? := by
  unfold swapRandom
  split
  · rename_i hij
    exact ⟨Swapped.refl h, by rw [hij]⟩
  · rename_i hij
    have ha := List.getElem?_eq_getElem hi
    have hb := List.getElem?_eq_getElem hj
    have hswap := h.swap ha hb hij
    have ga : s.vRandom.getD i 0 = s.vRandom[i] := by simp [List.getD, ha]
    have gb : s.vRandom.getD j 0 = s.vRandom[j] := by simp [List.getD, hb]
    simp only [ga, gb, modifyInfo_vRandom]
    refine ⟨⟨?_, ?_, ?_, ?_⟩, ?_⟩
    · rw [modifyInfo_eq, modifyInfo_eq]
    · refine hswap.congr fun n => ?_
      rw [place, lookup_modifyInfo, lookup_modifyInfo, lookup_modifyInfo]
      have hpa := (h i _).mp ha
      have hpb := (h j _).mp hb
      obtain ⟨ia, hla, -⟩ := Option.map_eq_some_iff.mp hpa
      obtain ⟨ib, hlb, -⟩ := Option.map_eq_some_iff.mp hpb
      have hab : s.vRandom[j] ≠ s.vRandom[i] := by
        intro he
        rw [he, hpa] at hpb
        exact hij (Option.some.inj hpb)
      rw [Function.update_apply, Function.update_apply, if_neg hab, hla, hlb]
      split
      · rfl
      · split
        · rfl
        · rfl
    · simp
    · intro n
      refine (map_modifyInfo _ _ _ CAddrInfo.core ?_ n).trans
        (map_modifyInfo s _ _ CAddrInfo.core ?_ n)
      · intro info
        rfl
      · intro info
        rfl
    · rw [List.getElem?_set_self (by simpa using hj), ha]

theorem Listed.swapped {s' : CAddrMan} (h : Listed T s) (hs : Swapped s s') : Listed T s' where
  indexed := hs.indexed
  named := by
    intro a n
    rw [hs.eq]
    change s.mapAddr.lookup a = some n ↔ (s'.mapInfo.lookup n).map _ = some a
    rw [map_of_core (hs.core n) _ fun _ => rfl]
    exact h.named a n
  below := by
    intro n info hn
    have hc := hs.core n
    rw [hn] at hc
    obtain ⟨old, ho, -⟩ := Option.map_eq_some_iff.mp hc.symm
    rw [hs.eq]
    exact h.below ho
  timed := by
    intro n info hn
    have hc := hs.core n
    rw [hn] at hc
    obtain ⟨old, ho, he⟩ := Option.map_eq_some_iff.mp hc.symm
    have ht : old.Timed T := h.timed ho
    change old.core.Timed T at ht
    rw [he] at ht
    exact ht

theorem Swapped.seat {s' : CAddrMan} (hs : Swapped s s') : s'.seat = s.seat := by
  funext n
  exact map_of_core (hs.core n) CAddrInfo.seat fun _ => rfl

theorem Swapped.vvTried {s' : CAddrMan} (hs : Swapped s s') : s'.vvTried = s.vvTried := by
  rw [hs.eq]

theorem Swapped.vvNew {s' : CAddrMan} (hs : Swapped s s') : s'.vvNew = s.vvNew := by
  rw [hs.eq]

theorem Swapped.nTried {s' : CAddrMan} (hs : Swapped s s') : s'.nTried = s.nTried := by
  rw [hs.eq]

theorem Swapped.nNew {s' : CAddrMan} (hs : Swapped s s') : s'.nNew = s.nNew := by
  rw [hs.eq]

theorem Kept.swapped {s' : CAddrMan} (h : Kept T m s) (hs : Swapped s s') : Kept T m s' where
  listed := h.listed.swapped hs
  tables := by
    rw [hs.seat, hs.vvTried, hs.vvNew, hs.nTried]
    exact h.tables

theorem Counted.swapped {s' : CAddrMan} (h : Counted s) (hs : Swapped s s') : Counted s' := by
  unfold Counted at *
  rw [hs.length, h, hs.nTried, hs.nNew]

/-! Giving up a reference. -/

theorem Listed.place_lt (h : Listed T s) {nId : Nat} {info : CAddrInfo}
    (hl : s.mapInfo.lookup nId = some info) : info.nRandomPos < s.vRandom.length := by
  have hp : s.vRandom[info.nRandomPos]? = some nId := by
    rw [h.indexed, place, hl]
    rfl
  exact (List.getElem?_eq_some_iff.mp hp).1

/-- The buckets and the number of the tried are the same. -/
def SameTables (s s' : CAddrMan) : Prop :=
  s'.vvTried = s.vvTried ∧ s'.vvNew = s.vvNew ∧ s'.nTried = s.nTried

/-- The last record in the order is deleted, with its address. -/
theorem Listed.erased (h : Listed T s) {nId : Nat} {addr : CNetAddr}
    (hinfo : s.netAddr nId = some addr)
    (hlast : s.vRandom[s.vRandom.length - 1]? = some nId) :
    Listed T { s with
      vRandom := s.vRandom.dropLast
      mapAddr := s.mapAddr.erase addr
      mapInfo := s.mapInfo.erase nId
      nNew := s.nNew - 1 } where
  indexed := by
    refine (h.indexed.pop hlast).congr fun n => ?_
    simp only [place, Assoc.lookup_erase_eq, Function.update_apply]
    split
    · rfl
    · rfl
  named := by
    intro a n
    have hn := h.named a n
    have hid := (h.named addr nId).mpr hinfo
    simp only [netAddr, Assoc.lookup_erase_eq] at hn hinfo ⊢
    by_cases hna : n = nId
    · subst hna
      rw [if_pos rfl]
      split
      · simp
      · rename_i ha
        rw [hn, hinfo]
        simp [Ne.symm ha]
    · rw [if_neg hna]
      split
      · rename_i ha
        subst ha
        rw [hid] at hn
        simp only [reduceCtorEq, false_iff]
        intro hc
        exact hna (Option.some.inj (hn.mpr hc)).symm
      · exact hn
  below := by
    intro n i hn
    rw [Assoc.lookup_erase_eq] at hn
    split at hn
    · cases hn
    · exact h.below hn
  timed := by
    intro n i hn
    rw [Assoc.lookup_erase_eq] at hn
    split at hn
    · cases hn
    · exact h.timed hn

theorem removeInfo_spec (h : Listed T s) {nId : Nat} {info : CAddrInfo}
    (hl : s.mapInfo.lookup nId = some info) :
    Listed T (s.removeInfo nId info) ∧
      (s.removeInfo nId info).seat = Function.update s.seat nId none ∧
      SameTables s (s.removeInfo nId info) ∧ (Counted s → Counted (s.removeInfo nId info)) := by
  have hlt := h.place_lt hl
  have hp : s.vRandom[info.nRandomPos]? = some nId := by
    rw [h.indexed, place, hl]
    rfl
  obtain ⟨hs, hlast⟩ := swapRandom_spec h.indexed hlt (Nat.sub_one_lt_of_lt hlt)
  unfold removeInfo
  generalize s.swapRandom info.nRandomPos (s.vRandom.length - 1) = s' at hs hlast
  rw [hp, ← hs.length] at hlast
  have h' := h.swapped hs
  have hinfo : s'.netAddr nId = some info.toCNetAddr := by
    have hc := map_of_core (hs.core nId) (fun i => i.toCNetAddr) fun _ => rfl
    rw [hl] at hc
    exact hc
  refine ⟨h'.erased hinfo hlast, ?_, ⟨hs.vvTried, hs.vvNew, hs.nTried⟩, ?_⟩
  · rw [← hs.seat]
    funext n
    simp only [seat, Assoc.lookup_erase_eq, Function.update_apply]
    split
    · rfl
    · rfl
  · intro hc
    have hc' := hc.swapped hs
    have hlen := hs.length
    simp only [Counted, List.length_dropLast] at hc' ⊢
    omega

theorem release_spec (h : Listed T s) {nId : Nat} {info : CAddrInfo}
    (hl : s.mapInfo.lookup nId = some info) :
    Listed T (s.release nId) ∧
      (s.release nId).seat = Function.update s.seat nId
        (if info.nRefCount - 1 = 0 then none else some (info.fInTried, info.nRefCount - 1)) ∧
      SameTables s (s.release nId) ∧ (Counted s → Counted (s.release nId)) := by
  have hmod := h.modify nId (f := fun info => { info with nRefCount := info.nRefCount - 1 })
    (fun _ => rfl) (fun _ => rfl) fun info hl => (h.timed hl : info.Timed T)
  have hseat := seat_modifyInfo s (fun info => { info with nRefCount := info.nRefCount - 1 }) hl
  have hlook := lookup_modifyInfo s nId (fun info => { info with nRefCount := info.nRefCount - 1 })
    nId
  rw [if_pos rfl, hl, Option.map_some] at hlook
  unfold release
  simp only [hlook]
  split
  · obtain ⟨hlist, hs, ht, hc⟩ := removeInfo_spec hmod hlook
    refine ⟨hlist, ?_, ?_, fun h => hc (h.modify nId _)⟩
    · rw [hs, hseat, Function.update_idem]
    · simpa [SameTables] using ht
  · exact ⟨hmod, hseat, by simp [SameTables], fun h => h.modify nId _⟩

theorem Kept.dropReference (h : Kept T m s) {b : Fin ADDRMAN_NEW_BUCKET_COUNT} {nId : Nat}
    (hb : nId ∈ s.vvNew b) (hj : m ≠ .joining nId) (hc : m ≠ .counted nId) :
    Kept T m (s.dropReference b nId) ∧ (Counted s → Counted (s.dropReference b nId)) := by
  obtain ⟨r, hseat⟩ := h.tables.seat_of_new hb
  obtain ⟨info, hl, hi⟩ := Option.map_eq_some_iff.mp hseat
  obtain ⟨hfalse, rfl⟩ := Prod.mk.inj hi
  obtain ⟨hlist, hs, ⟨htried, hnew, hcount⟩, hcnt⟩ := release_spec h.listed hl
  rw [hfalse] at hs
  have htab := h.tables.drop hb hseat hj hc
  refine ⟨⟨hlist.of_eq rfl rfl rfl rfl, ?_⟩, hcnt⟩
  change Tables m (s.release nId).seat (s.release nId).vvTried
    (Function.update (s.release nId).vvNew b (((s.release nId).vvNew b).erase nId))
    (s.release nId).nTried
  rw [hs, htried, hnew, hcount]
  exact htab

theorem dropReference_others (h : Kept T m s) {b : Fin ADDRMAN_NEW_BUCKET_COUNT} {nId : Nat}
    (hb : nId ∈ s.vvNew b) :
    (s.dropReference b nId).vvNew = Function.update s.vvNew b ((s.vvNew b).erase nId) ∧
      ∀ n, n ≠ nId → (s.dropReference b nId).seat n = s.seat n := by
  obtain ⟨r, hseat⟩ := h.tables.seat_of_new hb
  obtain ⟨info, hl, -⟩ := Option.map_eq_some_iff.mp hseat
  obtain ⟨-, hs, ⟨-, hnew, -⟩, -⟩ := release_spec h.listed hl
  constructor
  · change Function.update (s.release nId).vvNew b (((s.release nId).vvNew b).erase nId) = _
    rw [hnew]
  · intro n hn
    change (s.release nId).seat n = s.seat n
    rw [hs, Function.update_of_ne hn]

/-! Making room in a new bucket. -/

theorem olderNew_or (s : CAddrMan) (nOldest : Option Nat) (nId : Nat) :
    s.olderNew nOldest nId = nOldest ∨ s.olderNew nOldest nId = some nId := by
  unfold olderNew
  split
  · exact .inr rfl
  · split
    · split
      · exact .inr rfl
      · exact .inl rfl
    · exact .inl rfl

theorem olderNew_isSome (s : CAddrMan) (nOldest : Option Nat) (nId : Nat) :
    (s.olderNew nOldest nId).isSome := by
  cases nOldest with
  | none => rfl
  | some a =>
    rcases olderNew_or s (some a) nId with h | h
    · rw [h]
      rfl
    · rw [h]
      rfl

/-- The entry picked is one of those met, and there is one as soon as a position is met. -/
theorem foldl_olderNew (s : CAddrMan) (positions : List Nat) (l : List (Nat × Nat))
    (acc : Option Nat) :
    (∀ a, l.foldl (fun nOldest x =>
        if x.2 ∈ positions then s.olderNew nOldest x.1 else nOldest) acc = some a →
      acc = some a ∨ a ∈ l.map Prod.fst) ∧
    (acc.isSome ∨ (∃ x ∈ l, x.2 ∈ positions) → (l.foldl (fun nOldest x =>
      if x.2 ∈ positions then s.olderNew nOldest x.1 else nOldest) acc).isSome) := by
  induction l generalizing acc with
  | nil => simp
  | cons x l ih =>
    simp only [List.foldl_cons]
    by_cases hx : x.2 ∈ positions
    · rw [if_pos hx]
      obtain ⟨ih1, ih2⟩ := ih (s.olderNew acc x.1)
      refine ⟨?_, fun _ => ih2 (.inl (olderNew_isSome s acc x.1))⟩
      intro a ha
      rcases ih1 a ha with h | h
      · rcases olderNew_or s acc x.1 with ho | ho
        · exact .inl (ho ▸ h)
        · rw [ho] at h
          exact .inr (by simp [Option.some.inj h])
      · exact .inr (List.mem_cons_of_mem _ h)
    · rw [if_neg hx]
      obtain ⟨ih1, ih2⟩ := ih acc
      constructor
      · intro a ha
        exact (ih1 a ha).imp_right (List.mem_cons_of_mem _)
      · rintro (h | ⟨y, hy, h⟩)
        · exact ih2 (.inl h)
        · rcases List.mem_cons.mp hy with rfl | hy
          · exact absurd h hx
          · exact ih2 (.inr ⟨y, hy, h⟩)

/-- A drawn position that is in the bucket makes for a pick, and it is a member. -/
theorem oldestNew_spec (s : CAddrMan) {positions vNew : List Nat} {p : Nat} (hp : p ∈ positions)
    (hlt : p < vNew.length) : ∃ nId ∈ vNew, s.oldestNew positions vNew = some nId := by
  obtain ⟨hmem, hsome⟩ := foldl_olderNew s positions vNew.zipIdx none
  have hx : (vNew[p], p) ∈ vNew.zipIdx := by
    rw [List.mem_zipIdx_iff_getElem?]
    exact List.getElem?_eq_getElem hlt
  obtain ⟨a, ha⟩ := Option.isSome_iff_exists.mp (hsome (.inr ⟨_, hx, hp⟩))
  rcases hmem a ha with h | h
  · cases h
  · rw [List.zipIdx_map_fst] at h
    exact ⟨a, h, ha⟩

/-- `ShrinkNew` makes room in a bucket that holds something; an id in motion is not there. -/
theorem Kept.shrinkNew {nId : Nat} (h : Kept T (.counted nId) s)
    {b : Fin ADDRMAN_NEW_BUCKET_COUNT} (hout : nId ∉ s.vvNew b) (hpos : 0 < (s.vvNew b).length)
    (chance : Chance) :
    Kept T (.counted nId) (s.shrinkNew chance b) ∧
      ((s.shrinkNew chance b).vvNew b).length < (s.vvNew b).length ∧
      nId ∉ (s.shrinkNew chance b).vvNew b ∧ (s.shrinkNew chance b).seat nId = s.seat nId ∧
      (Counted s → Counted (s.shrinkNew chance b)) := by
  have hdrop : ∀ n, n ∈ s.vvNew b → Kept T (.counted nId) (s.dropReference b n) ∧
      ((s.dropReference b n).vvNew b).length < (s.vvNew b).length ∧
      nId ∉ (s.dropReference b n).vvNew b ∧ (s.dropReference b n).seat nId = s.seat nId ∧
      (Counted s → Counted (s.dropReference b n)) := by
    intro n hn
    have hne : nId ≠ n := by
      rintro rfl
      exact hout hn
    have hc : Motion.counted nId ≠ .counted n := by
      rintro ⟨⟩
      exact hne rfl
    obtain ⟨hk, hcnt⟩ := h.dropReference hn nofun hc
    obtain ⟨hnew, hseat⟩ := dropReference_others h hn
    rw [hnew, Function.update_self, List.length_erase_of_mem hn]
    exact ⟨hk, Nat.sub_one_lt_of_lt hpos, fun hm => hout (List.mem_of_mem_erase hm),
      hseat nId hne, hcnt⟩
  dsimp only [CAddrMan.shrinkNew]
  split
  · rename_i n hn
    exact hdrop n (List.mem_of_find?_eq_some hn)
  · have hp : chance.getRandInt 1 (s.vvNew b).length ∈
        (List.range 4).map fun k => chance.getRandInt (k + 1) (s.vvNew b).length :=
      List.mem_map.mpr ⟨0, by simp, rfl⟩
    obtain ⟨n, hn, he⟩ := oldestNew_spec s hp (Nat.mod_lt _ hpos)
    simp only [he]
    exact hdrop n hn

/-! `Add_`. -/

theorem find_some {addr : CNetAddr} {nId : Nat} {info : CAddrInfo}
    (h : s.find addr = some (nId, info)) : s.mapInfo.lookup nId = some info := by
  unfold find at h
  split at h
  · cases h
  · split at h
    · cases h
    · rename_i hl
      obtain ⟨rfl, rfl⟩ := Prod.mk.inj (Option.some.inj h)
      exact hl

theorem Listed.find_none (h : Listed T s) {addr : CNetAddr} (hf : s.find addr = none) :
    s.mapAddr.lookup addr = none := by
  cases ha : s.mapAddr.lookup addr with
  | none => rfl
  | some n =>
    obtain ⟨info, hl, -⟩ := Option.map_eq_some_iff.mp ((h.named addr n).mp ha)
    rw [find, ha] at hf
    simp [hl] at hf

theorem Listed.next_none (h : Listed T s) : s.mapInfo.lookup s.nIdCount = none := by
  cases hl : s.mapInfo.lookup s.nIdCount with
  | none => rfl
  | some info => exact absurd (h.below hl) (lt_irrefl _)

theorem Listed.create (h : Listed T s) {addr : CAddress}
    (ha : s.mapAddr.lookup addr.toCNetAddr = none) (source : CNetAddr) :
    Listed T (s.create addr source) where
  indexed := by
    have hp : s.place s.nIdCount = none := by rw [place, h.next_none, Option.map_none]
    refine (h.indexed.push hp).congr fun n => ?_
    simp only [place, CAddrMan.create, Assoc.lookup_insert_eq, Function.update_apply]
    split
    · rfl
    · rfl
  named := by
    intro a n
    have hn := h.named a n
    simp only [netAddr, CAddrMan.create, Assoc.lookup_insert_eq] at hn ⊢
    by_cases haa : a = addr.toCNetAddr
    · subst haa
      rw [ha] at hn
      rw [if_pos rfl]
      by_cases hid : n = s.nIdCount
      · rw [if_pos hid, hid]
        exact iff_of_true rfl rfl
      · rw [if_neg hid, ← hn]
        simp [Ne.symm hid]
    · rw [if_neg haa, hn]
      by_cases hid : n = s.nIdCount
      · rw [if_pos hid, hid, h.next_none]
        simpa using Ne.symm haa
      · rw [if_neg hid]
  below := by
    intro n info hn
    simp only [CAddrMan.create, Assoc.lookup_insert_eq] at hn ⊢
    split at hn
    · omega
    · exact (h.below hn).trans (Nat.lt_succ_self _)
  timed := by
    intro n info hn
    simp only [CAddrMan.create, Assoc.lookup_insert_eq] at hn
    split at hn
    · obtain rfl := Option.some.inj hn
      exact T.fresh
    · exact h.timed hn

/-- A new record is taken up and has no reference yet. -/
theorem Kept.create (h : Kept T .still s) {addr : CAddress}
    (ha : s.mapAddr.lookup addr.toCNetAddr = none) (source : CNetAddr) :
    Kept T (.joining s.nIdCount) (s.create addr source) where
  listed := h.listed.create ha source
  tables := by
    have hs : s.seat s.nIdCount = none := by rw [seat, h.listed.next_none, Option.map_none]
    have hseat : (s.create addr source).seat =
        Function.update s.seat s.nIdCount (some (false, 0)) := by
      funext n
      simp only [seat, CAddrMan.create, Assoc.lookup_insert_eq, Function.update_apply]
      split
      · rfl
      · rfl
    rw [hseat]
    exact h.tables.fresh hs

/-- The bucket takes the reference that was counted. -/
theorem Kept.insertNew {nId : Nat} (h : Kept T (.counted nId) s)
    {b : Fin ADDRMAN_NEW_BUCKET_COUNT} (hout : nId ∉ s.vvNew b)
    (hl : (s.vvNew b).length < ADDRMAN_NEW_BUCKET_SIZE) {r : Int}
    (hs : s.seat nId = some (false, r)) : Kept T .still (s.insertNew b nId) := by
  rw [CAddrMan.insertNew, if_neg hout]
  exact ⟨h.listed.of_eq rfl rfl rfl rfl, h.tables.insert hs hout hl⟩

/-- Putting an id into a bucket leaves the rest alone. -/
theorem insertNew_others (s : CAddrMan) (b : Fin ADDRMAN_NEW_BUCKET_COUNT) (nId : Nat) :
    (s.insertNew b nId).vvTried = s.vvTried ∧ (s.insertNew b nId).vRandom = s.vRandom ∧
      (s.insertNew b nId).nTried = s.nTried ∧ (s.insertNew b nId).nNew = s.nNew := by
  unfold insertNew
  split
  · exact ⟨rfl, rfl, rfl, rfl⟩
  · exact ⟨rfl, rfl, rfl, rfl⟩

theorem insertNew_counted (b : Fin ADDRMAN_NEW_BUCKET_COUNT) (nId : Nat) (h : Counted s) :
    Counted (s.insertNew b nId) := by
  obtain ⟨-, hrandom, htried, hnew⟩ := insertNew_others s b nId
  rw [Counted, hrandom, htried, hnew]
  exact h

/-- An id that is taken up gets its reference, or had it already. -/
theorem Kept.addReference {nId : Nat} (h : Kept T (.joining nId) s) {r : Int}
    (hs : s.seat nId = some (false, r)) (H : AddrHash) (chance : Chance) (source : CNetAddr) :
    Kept T .still (s.addReference H chance nId source) ∧
      (Counted s → Counted (s.addReference H chance nId source)) := by
  obtain ⟨info, hl, hi⟩ := Option.map_eq_some_iff.mp hs
  obtain ⟨hfalse, rfl⟩ := Prod.mk.inj hi
  dsimp only [CAddrMan.addReference]
  rw [hl]
  dsimp only
  generalize info.getNewBucket H source = b
  split
  · rename_i hb
    exact ⟨⟨h.listed, h.tables.settle hb⟩, id⟩
  · rename_i hout
    have hcounted : Kept T (.counted nId)
        (s.modifyInfo nId fun info => { info with nRefCount := info.nRefCount + 1 }) := by
      refine ⟨h.listed.modify nId (fun _ => rfl) (fun _ => rfl) fun i hi =>
        (h.listed.timed hi : i.Timed T), ?_⟩
      rw [seat_modifyInfo s _ hl]
      simpa [CAddrInfo.seat, hfalse] using h.tables.count hs
    have hseat : (s.modifyInfo nId fun info =>
        { info with nRefCount := info.nRefCount + 1 }).seat nId =
          some (false, info.nRefCount + 1) := by
      rw [seat_modifyInfo s _ hl, Function.update_self]
      simp [CAddrInfo.seat, hfalse]
    have hcnt : Counted s →
        Counted (s.modifyInfo nId fun info => { info with nRefCount := info.nRefCount + 1 }) :=
      fun hc => hc.modify nId _
    have hvv : (s.modifyInfo nId fun info =>
        { info with nRefCount := info.nRefCount + 1 }).vvNew = s.vvNew := modifyInfo_vvNew s nId _
    generalize (s.modifyInfo nId fun info =>
      { info with nRefCount := info.nRefCount + 1 }) = s1 at *
    rw [← hvv] at hout
    split
    · rename_i hfull
      have hpos : 0 < (s1.vvNew b).length := hfull ▸ Nat.succ_pos 63
      obtain ⟨hk, hlt, hout', hseat', hcnt'⟩ := hcounted.shrinkNew hout hpos chance
      rw [hfull] at hlt
      exact ⟨hk.insertNew hout' hlt (hseat'.trans hseat),
        fun hc => insertNew_counted b nId (hcnt' (hcnt hc))⟩
    · rename_i hfull
      have hlt := lt_of_le_of_ne (hcounted.tables.new_small b) hfull
      exact ⟨hcounted.insertNew hout hlt hseat, fun hc => insertNew_counted b nId (hcnt hc)⟩

theorem Kept.add (h : Kept T .still s) (hc : Counted s) (H : AddrHash) (chance : Chance)
    (addr : CAddress) (source : CNetAddr) (nTimePenalty : Int) :
    Kept T .still (s.add H chance addr source nTimePenalty).1 ∧
      Counted (s.add H chance addr source nTimePenalty).1 := by
  dsimp only [CAddrMan.add]
  split
  · exact ⟨h, hc⟩
  · split
    · rename_i nId info hf
      have hl := find_some hf
      have hrefresh : Kept T .still (s.modifyInfo nId (refresh chance addr nTimePenalty)) :=
        h.modify nId (fun _ => rfl) (fun _ => rfl) (fun _ => rfl) fun i hi =>
          (h.listed.timed hi : i.Timed T)
      have hcr := hc.modify nId (refresh chance addr nTimePenalty)
      have hseat : (s.modifyInfo nId (refresh chance addr nTimePenalty)).seat nId =
          some (refresh chance addr nTimePenalty info).seat := by
        rw [seat_modifyInfo s _ hl, Function.update_self]
      generalize s.modifyInfo nId (refresh chance addr nTimePenalty) = s1 at *
      generalize refresh chance addr nTimePenalty info = info1 at *
      split
      · exact ⟨hrefresh, hcr⟩
      · split
        · exact ⟨hrefresh, hcr⟩
        · rename_i hft
          split
          · exact ⟨hrefresh, hcr⟩
          · rename_i hmax
            split
            · exact ⟨hrefresh, hcr⟩
            · rw [CAddrInfo.seat, Bool.eq_false_iff.mpr hft] at hseat
              have hjoin : Kept T (.joining nId) s1 :=
                ⟨hrefresh.listed, hrefresh.tables.join hseat hmax⟩
              obtain ⟨hk, hcnt⟩ := hjoin.addReference hseat H chance source
              exact ⟨hk, hcnt hcr⟩
    · rename_i hf
      have hcreate := h.create (h.listed.find_none hf) source
      have hseat : (s.create addr source).seat s.nIdCount = some (false, 0) := by
        simp [seat, CAddrMan.create, CAddrInfo.seat]
      have hcount : ((s.create addr source).vRandom.length : Int) =
          (s.create addr source).nTried + ((s.create addr source).nNew + 1) := by
        simp only [CAddrMan.create, List.length_append, List.length_singleton, Nat.cast_add,
          Nat.cast_one]
        rw [hc]
        omega
      generalize s.create addr source = s1 at *
      have hmod : Kept T (.joining s.nIdCount) (s1.modifyInfo s.nIdCount fun info =>
          { info with nTime := UInt32.ofInt (max 0 (info.nTime.toNat - nTimePenalty)) }) :=
        hcreate.modify _ (fun _ => rfl) (fun _ => rfl) (fun _ => rfl) fun i hi =>
          (hcreate.listed.timed hi : i.Timed T)
      have hseat' : (s1.modifyInfo s.nIdCount fun info =>
          { info with nTime := UInt32.ofInt (max 0 (info.nTime.toNat - nTimePenalty)) }).seat
            s.nIdCount = some (false, 0) := by
        refine (congrFun (seat_modifyInfo_same s1 _ ?_) _).trans hseat
        intro info
        rfl
      have hjoin : Kept T (.joining s.nIdCount)
          { (s1.modifyInfo s.nIdCount fun info =>
              { info with nTime := UInt32.ofInt (max 0 (info.nTime.toNat - nTimePenalty)) }) with
            nNew := (s1.modifyInfo s.nIdCount fun info =>
              { info with nTime := UInt32.ofInt (max 0 (info.nTime.toNat - nTimePenalty)) }).nNew
                + 1 } :=
        ⟨hmod.listed.of_eq rfl rfl rfl rfl, hmod.tables⟩
      obtain ⟨hk, hcnt⟩ := hjoin.addReference hseat' H chance source
      exact ⟨hk, hcnt (by simpa [Counted] using hcount)⟩

/-! `Good_`. -/

/-- What shuffling the front of a tried bucket keeps: its members, and a position inside. -/
def Shuffled (vTried : List Nat) (acc : List Nat × Option Nat × Nat) : Prop :=
  acc.1.Perm vTried ∧ acc.2.2 < vTried.length

theorem selectTriedRound_shuffled (s : CAddrMan) (chance : Chance) {vTried : List Nat} {i : Nat}
    (hi : i < vTried.length) {acc : List Nat × Option Nat × Nat} (h : Shuffled vTried acc) :
    Shuffled vTried (s.selectTriedRound chance acc i) := by
  obtain ⟨l, nOldest, nOldestPos⟩ := acc
  obtain ⟨hp, hpos⟩ := h
  have hlen : l.length = vTried.length := hp.length_eq
  have hn : chance.getRandInt (i + 1) (l.length - i) + i < l.length := by
    have := Nat.mod_lt (chance.draw (i + 1)) (Nat.sub_pos_of_lt (hlen ▸ hi))
    rw [Chance.getRandInt]
    omega
  have hi' : i < l.length := hlen ▸ hi
  dsimp only [selectTriedRound]
  generalize chance.getRandInt (i + 1) (l.length - i) + i = nPos at hn
  have hswap : ((l.set nPos (l.getD i 0)).set i (l.getD nPos 0)).Perm vTried := by
    rw [List.getD_eq_getElem _ _ hi', List.getD_eq_getElem _ _ hn]
    exact (List.set_set_perm hn hi').trans hp
  split
  · exact ⟨hswap, hlen ▸ hn⟩
  · split
    · exact ⟨hswap, hlen ▸ hn⟩
    · exact ⟨hswap, hpos⟩

theorem selectTried_spec (s : CAddrMan) (chance : Chance) {vTried : List Nat}
    (hpos : 0 < vTried.length) :
    (s.selectTried chance vTried).1.Perm vTried ∧
      (s.selectTried chance vTried).2 < vTried.length := by
  have hfold : ∀ l : List Nat, (∀ i ∈ l, i < vTried.length) →
      ∀ acc, Shuffled vTried acc → Shuffled vTried (l.foldl (s.selectTriedRound chance) acc) := by
    intro l hl
    induction l with
    | nil => exact fun _ h => h
    | cons i l ih =>
      intro acc h
      have hi := hl i List.mem_cons_self
      exact ih (fun j hj => hl j (List.mem_cons_of_mem _ hj)) _
        (selectTriedRound_shuffled s chance hi h)
  exact hfold _ (fun i hi => (List.mem_range.mp hi).trans_le (min_le_right _ _)) _
    ⟨List.Perm.refl _, hpos⟩

/-- An id leaves the new buckets with all its references. -/
theorem Kept.leaveNew (h : Kept T .still s) {nId : Nat} {r : Int}
    (hs : s.seat nId = some (false, r)) :
    Kept T (.joining nId) (s.leaveNew nId) ∧ (s.leaveNew nId).seat nId = some (false, 0) := by
  obtain ⟨info, hl, hi⟩ := Option.map_eq_some_iff.mp hs
  obtain ⟨hfalse, rfl⟩ := Prod.mk.inj hi
  obtain ⟨-, hr, -⟩ := h.tables.seated_new hs
  have hlen : ((s.bucketsOf nId).length : Int) = held s.vvNew nId := by
    rw [bucketsOf, length_filter_mem h.tables.nodup]
  have hseat : (s.leaveNew nId).seat = Function.update s.seat nId (some (false, 0)) := by
    change (s.modifyInfo nId _).seat = _
    rw [seat_modifyInfo s _ hl, CAddrInfo.seat, hfalse, hlen, hr, Motion.owed_still, add_zero,
      sub_self]
  refine ⟨⟨?_, ?_⟩, ?_⟩
  · have hmod := h.listed.modify nId
      (f := fun info => { info with nRefCount := info.nRefCount - (s.bucketsOf nId).length })
      (fun _ => rfl) (fun _ => rfl) fun i hi => (h.listed.timed hi : i.Timed T)
    exact hmod.of_eq rfl rfl rfl rfl
  · rw [hseat]
    simpa [CAddrMan.leaveNew] using h.tables.leave hs
  · rw [hseat, Function.update_self]

/-- Leaving the new buckets moves one from the count of the new. -/
theorem leaveNew_others (s : CAddrMan) (nId : Nat) :
    (s.leaveNew nId).vRandom = s.vRandom ∧ (s.leaveNew nId).nTried = s.nTried ∧
      (s.leaveNew nId).nNew = s.nNew - 1 ∧
      ∀ b, (s.leaveNew nId).vvNew b = (s.vvNew b).erase nId := by
  simp [leaveNew]

/-- An id that has left the new buckets enters a tried bucket with room. -/
theorem Kept.enterTried {nId : Nat} {info : CAddrInfo} (h : Kept T (.joining nId) s)
    (hl : s.mapInfo.lookup nId = some info) (hs : s.seat nId = some (false, 0))
    (htimes : T.allowed info.nLastTry info.nLastSuccess true) {k : Fin ADDRMAN_TRIED_BUCKET_COUNT}
    (hroom : (s.vvTried k).length < ADDRMAN_TRIED_BUCKET_SIZE) :
    Kept T .still { s.modifyInfo nId (fun info => { info with fInTried := true }) with
      vvTried := Function.update s.vvTried k (s.vvTried k ++ [nId])
      nTried := s.nTried + 1 } where
  listed := by
    have hmod := h.listed.modify nId (f := fun info => { info with fInTried := true })
      (fun _ => rfl) (fun _ => rfl) fun i hi => by
        obtain rfl := Option.some.inj (hl.symm.trans hi)
        exact htimes
    exact hmod.of_eq rfl rfl rfl rfl
  tables := by
    have hseat := seat_modifyInfo s (fun info => { info with fInTried := true }) hl
    have hr : info.nRefCount = 0 := by
      rw [seat, hl] at hs
      exact (Prod.mk.inj (Option.some.inj hs)).2
    rw [CAddrInfo.seat, hr] at hseat
    change Tables .still (s.modifyInfo nId _).seat _ (s.modifyInfo nId _).vvNew _
    rw [hseat, modifyInfo_vvNew]
    exact h.tables.enter hs hroom

/-- An id that has left the new buckets takes the place of a tried one, which returns to a new
bucket with room. -/
theorem Kept.evictTried {nId : Nat} {info : CAddrInfo} (h : Kept T (.joining nId) s)
    (hl : s.mapInfo.lookup nId = some info) (hs : s.seat nId = some (false, 0))
    (htimes : T.allowed info.nLastTry info.nLastSuccess true)
    {k : Fin ADDRMAN_TRIED_BUCKET_COUNT} {l : List Nat} (hp : l.Perm (s.vvTried k)) {nPos nOld : Nat}
    (hold : l[nPos]? = some nOld)
    {b : Fin ADDRMAN_NEW_BUCKET_COUNT} (hroom : (s.vvNew b).length < ADDRMAN_NEW_BUCKET_SIZE)
    {s' : CAddrMan} (hs' : s' = (s.modifyInfo nOld fun info =>
      { info with fInTried := false, nRefCount := 1 }).insertNew b nOld) (nNew : Int) :
    Kept T .still { s'.modifyInfo nId (fun info => { info with fInTried := true }) with
      nNew := nNew
      vvTried := Function.update s.vvTried k (l.set nPos nId) } := by
  obtain ⟨hlt, hget⟩ := List.getElem?_eq_some_iff.mp hold
  have hmem : nOld ∈ s.vvTried k := hp.mem_iff.mp (hget ▸ List.getElem_mem hlt)
  have hsold := h.tables.seat_of_tried hmem
  obtain ⟨infoOld, hlold, hseatOld⟩ := Option.map_eq_some_iff.mp hsold
  have htimesOld : T.allowed infoOld.nLastTry infoOld.nLastSuccess true :=
    (Prod.mk.inj hseatOld).1 ▸ h.listed.timed hlold
  have hne : nId ≠ nOld := by
    rintro rfl
    rw [hs] at hsold
    cases hsold
  have hout : nOld ∉ s.vvNew b := held_eq_zero.mp (h.tables.seated_tried hsold).2.2 b
  have hr : info.nRefCount = 0 := by
    rw [seat, hl] at hs
    exact (Prod.mk.inj (Option.some.inj hs)).2
  rw [CAddrMan.insertNew, modifyInfo_vvNew, if_neg hout] at hs'
  have hlist' : Listed T s' := by
    have hmod := h.listed.modify nOld
      (f := fun info => { info with fInTried := false, nRefCount := 1 })
      (fun _ => rfl) (fun _ => rfl) fun i hi => by
        obtain rfl := Option.some.inj (hlold.symm.trans hi)
        exact T.back htimesOld
    rw [hs']
    exact hmod.of_eq rfl rfl rfl rfl
  have hl' : s'.mapInfo.lookup nId = some info := by
    rw [hs']
    refine (lookup_modifyInfo s nOld _ nId).trans ?_
    rw [if_neg hne, hl]
  have hseat' : s'.seat = Function.update s.seat nOld (some (false, 1)) := by
    rw [hs']
    exact seat_modifyInfo s _ hlold
  have hnew' : s'.vvNew = Function.update s.vvNew b ((s.vvNew b).orderedInsert (· ≤ ·) nOld) := by
    rw [hs']
  have htried' : s'.nTried = s.nTried := by
    rw [hs']
    exact modifyInfo_nTried s nOld _
  refine ⟨?_, ?_⟩
  · have hmod := hlist'.modify nId (f := fun info => { info with fInTried := true })
      (fun _ => rfl) (fun _ => rfl) fun i hi => by
        obtain rfl := Option.some.inj (hl'.symm.trans hi)
        exact htimes
    exact hmod.of_eq rfl rfl rfl rfl
  · have hseat := seat_modifyInfo s' (fun info => { info with fInTried := true }) hl'
    rw [CAddrInfo.seat, hr, hseat'] at hseat
    change Tables .still (s'.modifyInfo nId _).seat _ (s'.modifyInfo nId _).vvNew
      (s'.modifyInfo nId _).nTried
    rw [hseat, modifyInfo_vvNew, modifyInfo_nTried, hnew', htried']
    exact h.tables.evict hs hp hold hroom

/-- The same with the counts as the code leaves them: what was one short is whole again. -/
theorem Kept.swapTried {s₀ : CAddrMan} {nId : Nat} {info : CAddrInfo} (h : Kept T (.joining nId) s)
    (hl : s.mapInfo.lookup nId = some info) (hs : s.seat nId = some (false, 0))
    (htimes : T.allowed info.nLastTry info.nLastSuccess true)
    (hcount : Counted s₀ → (s.vRandom.length : Int) = s.nTried + (s.nNew + 1))
    {k : Fin ADDRMAN_TRIED_BUCKET_COUNT} {l : List Nat} (hp : l.Perm (s.vvTried k))
    {nPos nOld : Nat} (hold : l[nPos]? = some nOld) {b : Fin ADDRMAN_NEW_BUCKET_COUNT}
    (hroom : (s.vvNew b).length < ADDRMAN_NEW_BUCKET_SIZE) {s' : CAddrMan}
    (hs' : s' = (s.modifyInfo nOld fun info =>
      { info with fInTried := false, nRefCount := 1 }).insertNew b nOld) :
    Kept T .still { s'.modifyInfo nId (fun info => { info with fInTried := true }) with
      nNew := s'.nNew + 1
      vvTried := Function.update s'.vvTried k (l.set nPos nId) } ∧
    (Counted s₀ → Counted { s'.modifyInfo nId (fun info => { info with fInTried := true }) with
      nNew := s'.nNew + 1
      vvTried := Function.update s'.vvTried k (l.set nPos nId) }) := by
  obtain ⟨hvt, hvr, hnt, hnn⟩ := insertNew_others (s.modifyInfo nOld fun info =>
    { info with fInTried := false, nRefCount := 1 }) b nOld
  rw [← hs'] at hvt hvr hnt hnn
  rw [modifyInfo_vvTried] at hvt
  rw [modifyInfo_vRandom] at hvr
  rw [modifyInfo_nTried] at hnt
  rw [modifyInfo_nNew] at hnn
  rw [hvt]
  refine ⟨h.evictTried hl hs htimes hp hold hroom hs' _, ?_⟩
  intro hc
  have hc' := hcount hc
  simp only [Counted, modifyInfo_vRandom, modifyInfo_nTried, hvr, hnt, hnn]
  exact hc'

theorem Kept.makeTried (h : Kept T .still s) {nId : Nat} {info : CAddrInfo}
    (hl : s.mapInfo.lookup nId = some info) (hft : info.fInTried = false)
    (htimes : T.allowed info.nLastTry info.nLastSuccess true) (H : AddrHash) (chance : Chance)
    {nOrigin : Fin ADDRMAN_NEW_BUCKET_COUNT} (ho : nId ∈ s.vvNew nOrigin) :
    Kept T .still (s.makeTried H chance nId nOrigin) ∧
      (Counted s → Counted (s.makeTried H chance nId nOrigin)) := by
  have hs : s.seat nId = some (false, info.nRefCount) := by
    rw [seat, hl, Option.map_some, CAddrInfo.seat, hft]
  obtain ⟨hk, hs'⟩ := h.leaveNew hs
  obtain ⟨hrandom, htried, hnew, hbuckets⟩ := leaveNew_others s nId
  obtain ⟨info', hl', htimes'⟩ : ∃ info', (s.leaveNew nId).mapInfo.lookup nId = some info' ∧
      T.allowed info'.nLastTry info'.nLastSuccess true := by
    refine ⟨_, (lookup_modifyInfo s nId _ nId).trans (by rw [if_pos rfl, hl, Option.map_some]), ?_⟩
    exact htimes
  have horigin : ((s.leaveNew nId).vvNew nOrigin).length < ADDRMAN_NEW_BUCKET_SIZE := by
    have hsmall := h.tables.new_small nOrigin
    have hpos := List.length_pos_of_mem ho
    rw [hbuckets, List.length_erase_of_mem ho]
    omega
  have hcount : Counted s → ((s.leaveNew nId).vRandom.length : Int) =
      (s.leaveNew nId).nTried + ((s.leaveNew nId).nNew + 1) := by
    intro hc
    rw [hrandom, htried, hnew, hc]
    omega
  dsimp only [CAddrMan.makeTried]
  generalize s.leaveNew nId = s1 at *
  rw [hl']
  dsimp only
  generalize info'.getTriedBucket H = k
  split
  · rename_i hroom
    refine ⟨?_, ?_⟩
    · simpa using hk.enterTried hl' hs' htimes' hroom
    · intro hc
      have := hcount hc
      simp only [Counted, modifyInfo_vRandom, modifyInfo_nTried, modifyInfo_nNew]
      omega
  · rename_i hfull
    have hpos : 0 < (s1.vvTried k).length := by
      rw [not_lt] at hfull
      exact (Nat.succ_pos 63).trans_le hfull
    obtain ⟨hp, hlt⟩ := selectTried_spec s1 chance hpos
    generalize s1.selectTried chance (s1.vvTried k) = sel at hp hlt
    obtain ⟨l, nPos⟩ := sel
    have hlt' : nPos < l.length := hp.length_eq ▸ hlt
    have hold : l[nPos]? = some (l.getD nPos 0) := by
      rw [List.getD_eq_getElem _ _ hlt', List.getElem?_eq_getElem hlt']
    dsimp only
    generalize l.getD nPos 0 = nOld at hold
    split
    · rename_i hnone
      have hmem := hp.mem_iff.mp (List.mem_of_getElem? hold)
      have hseat := hk.tables.seat_of_tried hmem
      rw [seat, hnone] at hseat
      cases hseat
    · rename_i infoOld hlold
      split
      · rename_i hb
        rw [modifyInfo_vvNew] at hb
        simpa using hk.swapTried hl' hs' htimes' hcount hp hold hb rfl
      · simpa using hk.swapTried hl' hs' htimes' hcount hp hold horigin rfl

theorem mem_of_findBucket {nRnd nId : Nat} {b : Fin ADDRMAN_NEW_BUCKET_COUNT}
    (h : s.findBucket nRnd nId = some b) : nId ∈ s.vvNew b := by
  simpa using List.find?_some h

theorem Kept.good (h : Kept T .still s) (hc : Counted s) (H : AddrHash) (chance : Chance)
    (addr : CService) {nTime : Int} (ht : T.allowed nTime nTime true) :
    Kept T .still (s.good H chance addr nTime) ∧ Counted (s.good H chance addr nTime) := by
  dsimp only [CAddrMan.good]
  split
  · exact ⟨h, hc⟩
  · rename_i nId info hf
    have hl := find_some hf
    split
    · exact ⟨h, hc⟩
    · have hmod : Kept T .still (s.modifyInfo nId fun info =>
          { info with nLastSuccess := nTime, nLastTry := nTime, nTime := UInt32.ofInt nTime,
                      nAttempts := 0 }) :=
        h.modify nId (fun _ => rfl) (fun _ => rfl) (fun _ => rfl) fun i _ => by
          change T.allowed nTime nTime i.fInTried
          cases i.fInTried with
          | true => exact ht
          | false => exact T.back ht
      have hlook := lookup_modifyInfo s nId (fun info =>
        { info with nLastSuccess := nTime, nLastTry := nTime, nTime := UInt32.ofInt nTime,
                    nAttempts := 0 }) nId
      rw [if_pos rfl, hl, Option.map_some] at hlook
      have hcm : Counted (s.modifyInfo nId fun info =>
          { info with nLastSuccess := nTime, nLastTry := nTime, nTime := UInt32.ofInt nTime,
                      nAttempts := 0 }) := hc.modify nId _
      generalize (s.modifyInfo nId fun info =>
        { info with nLastSuccess := nTime, nLastTry := nTime, nTime := UInt32.ofInt nTime,
                    nAttempts := 0 }) = s1 at *
      split
      · exact ⟨hmod, hcm⟩
      · rename_i hft
        split
        · exact ⟨hmod, hcm⟩
        · rename_i b hb
          obtain ⟨hk, hcnt⟩ := hmod.makeTried hlook (Bool.eq_false_iff.mpr hft) ht H chance
            (mem_of_findBucket hb)
          exact ⟨hk, hcnt hcm⟩

/-! `Attempt_`, `Connected_` and `GetAddr_`. -/

theorem Kept.attempt (h : Kept T .still s) (hc : Counted s) (addr : CService) {nTime : Int}
    (ht : ∀ {nLastTry nLastSuccess fInTried}, T.allowed nLastTry nLastSuccess fInTried →
      T.allowed nTime nLastSuccess fInTried) :
    Kept T .still (s.attempt addr nTime) ∧ Counted (s.attempt addr nTime) := by
  unfold CAddrMan.attempt
  split
  · exact ⟨h, hc⟩
  · split
    · exact ⟨h, hc⟩
    · refine ⟨h.modify _ (fun _ => rfl) (fun _ => rfl) (fun _ => rfl) fun i hi => ?_, hc.modify _ _⟩
      have hold : T.allowed i.nLastTry i.nLastSuccess i.fInTried := h.listed.timed hi
      exact ht hold

theorem Kept.connected (h : Kept T .still s) (hc : Counted s) (addr : CService) (nTime : Int) :
    Kept T .still (s.connected addr nTime) ∧ Counted (s.connected addr nTime) := by
  unfold CAddrMan.connected
  split
  · exact ⟨h, hc⟩
  · split
    · exact ⟨h, hc⟩
    · split
      · exact ⟨h.modify _ (fun _ => rfl) (fun _ => rfl) (fun _ => rfl) fun i hi =>
          (h.listed.timed hi : i.Timed T), hc.modify _ _⟩
      · exact ⟨h, hc⟩

theorem getAddrRound_fst (chance : Chance) (acc : CAddrMan × List CAddress) (n : Nat) :
    (getAddrRound chance acc n).1 =
      acc.1.swapRandom n (chance.getRandInt n (acc.1.vRandom.length - n) + n) := by
  dsimp only [getAddrRound]
  split
  · rfl
  · rfl

/-- Shuffling the front of the random order keeps everything. -/
theorem Kept.foldl_getAddrRound (chance : Chance) (l : List Nat) (acc : CAddrMan × List CAddress)
    (hl : ∀ n ∈ l, n < acc.1.vRandom.length) (h : Kept T .still acc.1) (hc : Counted acc.1) :
    Kept T .still (l.foldl (getAddrRound chance) acc).1 ∧
      Counted (l.foldl (getAddrRound chance) acc).1 := by
  induction l generalizing acc with
  | nil => exact ⟨h, hc⟩
  | cons n l ih =>
    have hn := hl n List.mem_cons_self
    have hpos : chance.getRandInt n (acc.1.vRandom.length - n) + n < acc.1.vRandom.length := by
      have := Nat.mod_lt (chance.draw n) (Nat.sub_pos_of_lt hn)
      rw [Chance.getRandInt]
      omega
    obtain ⟨hs, -⟩ := swapRandom_spec h.listed.indexed hn hpos
    rw [← getAddrRound_fst] at hs
    rw [List.foldl_cons]
    refine ih _ ?_ (h.swapped hs) (hc.swapped hs)
    intro j hj
    rw [hs.length]
    exact hl j (List.mem_cons_of_mem _ hj)

theorem Kept.getAddr (h : Kept T .still s) (hc : Counted s) (chance : Chance) :
    Kept T .still (s.getAddr chance).1 ∧ Counted (s.getAddr chance).1 := by
  refine Kept.foldl_getAddrRound chance _ _ ?_ h hc
  intro n hn
  have hlt := List.mem_range.mp hn
  have hpct : ADDRMAN_GETADDR_MAX_PCT * s.vRandom.length / 100 ≤ s.vRandom.length := by
    rw [ADDRMAN_GETADDR_MAX_PCT]
    omega
  exact hlt.trans_le ((min_le_left _ _).trans hpct)

end CAddrMan

/-- The times a call may bring: a time of success is positive, a time of trying not negative. -/
def AddrOp.Timely : AddrOp → Prop
  | .good _ _ nTime => 0 < nTime
  | .attempt _ nTime => 0 ≤ nTime
  | _ => True

/-- The times that a call brings are allowed. -/
def AddrOp.Keeps (T : Times) : AddrOp → Prop
  | .good _ _ nTime => T.allowed nTime nTime true
  | .attempt _ nTime => ∀ {nLastTry nLastSuccess fInTried},
    T.allowed nLastTry nLastSuccess fInTried → T.allowed nTime nLastSuccess fInTried
  | _ => True

theorem AddrOp.Timely.keeps {op : AddrOp} (h : op.Timely) : op.Keeps .checked := by
  cases op with
  | good chance addr nTime => exact ⟨le_of_lt h, le_of_lt h, fun _ => ne_of_gt h⟩
  | attempt addr nTime => exact fun ht => ⟨h, ht.2⟩
  | add | connected | select | getAddr => trivial

namespace CAddrMan

variable {T : Times} {s : CAddrMan}

/-- Every call keeps lists, tables and counters. -/
theorem Kept.step (H : AddrHash) (h : Kept T .still s) (hc : Counted s) {op : AddrOp}
    (ht : op.Keeps T) : Kept T .still (s.step H op) ∧ Counted (s.step H op) := by
  cases op with
  | add chance addr source nTimePenalty => exact h.add hc H chance addr source nTimePenalty
  | good chance addr nTime => exact h.good hc H chance addr ht
  | attempt addr nTime => exact h.attempt hc addr ht
  | connected addr nTime => exact h.connected hc addr nTime
  | select chance => exact ⟨h, hc⟩
  | getAddr chance => exact h.getAddr hc chance

theorem Kept.empty : Kept T .still {} where
  listed := ⟨by simp [Indexed, place], by simp [netAddr], by simp, by simp⟩
  tables :=
    ⟨fun _ => by simp [held, seat, Seated], by simp, by simp, by simp, by simp [filled]⟩

theorem Counted.empty : Counted {} := by simp [Counted]

/-- So does every run from an empty manager. -/
theorem Kept.run (H : AddrHash) {ops : List AddrOp} (ht : ∀ op ∈ ops, op.Keeps T) :
    Kept T .still (run H ops) ∧ Counted (run H ops) := by
  have hfold : ∀ (ops : List AddrOp), (∀ op ∈ ops, op.Keeps T) → ∀ s, Kept T .still s → Counted s →
      Kept T .still (ops.foldl (CAddrMan.step H) s) ∧ Counted (ops.foldl (CAddrMan.step H) s) := by
    intro ops
    induction ops with
    | nil => exact fun _ s h hc => ⟨h, hc⟩
    | cons op ops ih =>
      intro ht s h hc
      obtain ⟨hk, hc'⟩ := h.step H hc (ht op List.mem_cons_self)
      exact ih (fun o ho => ht o (List.mem_cons_of_mem _ ho)) _ hk hc'
  exact hfold ops ht {} Kept.empty Counted.empty

end CAddrMan

end Triangles
