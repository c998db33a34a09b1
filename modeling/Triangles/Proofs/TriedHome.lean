import Triangles.Proofs.AddrMan

/-! Every tried entry stands in the bucket that its address is hashed to. -/

namespace Triangles

open Roster

namespace CAddrMan

variable (H : AddrHash)

def home (s : CAddrMan) (nId : Nat) : Option (Fin ADDRMAN_TRIED_BUCKET_COUNT) :=
  (s.mapInfo.lookup nId).map (·.getTriedBucket H)

def Placed (s : CAddrMan) : Prop := ∀ k nId, nId ∈ s.vvTried k → s.home H nId = some k

/-- The tried buckets are the same, and so is the home of all in them. -/
structure SameHomes (s s' : CAddrMan) : Prop where
  vvTried : s'.vvTried = s.vvTried
  home : ∀ nId k, nId ∈ s.vvTried k → s'.home H nId = s.home H nId

variable {H} {s s' s'' : CAddrMan}

theorem SameHomes.refl : SameHomes H s s := ⟨rfl, fun _ _ _ => rfl⟩

theorem SameHomes.trans (h : SameHomes H s s') (h' : SameHomes H s' s'') : SameHomes H s s'' where
  vvTried := h'.vvTried.trans h.vvTried
  home nId k hk := by
    rw [← h.home nId k hk]
    refine h'.home nId k ?_
    rw [h.vvTried]
    exact hk

theorem Placed.same (h : Placed H s) (hs : SameHomes H s s') : Placed H s' := by
  intro k nId hk
  rw [hs.vvTried] at hk
  rw [hs.home nId k hk]
  exact h k nId hk

/-- Records keep their homes when their addresses stay. -/
theorem home_modifyInfo (s : CAddrMan) (nId : Nat) {f : CAddrInfo → CAddrInfo}
    (hf : ∀ info, (f info).toCService = info.toCService) : (s.modifyInfo nId f).home H = s.home H :=
  funext (map_modifyInfo s nId f (·.getTriedBucket H) fun info =>
    Fin.ext (congrArg (fun addr => H.triedHash addr % 64) (hf info)))

theorem SameHomes.modify (s : CAddrMan) (nId : Nat) {f : CAddrInfo → CAddrInfo}
    (hf : ∀ info, (f info).toCService = info.toCService) : SameHomes H s (s.modifyInfo nId f) :=
  ⟨modifyInfo_vvTried s nId f, fun _ _ _ => by rw [home_modifyInfo s nId hf]⟩

theorem SameHomes.swapRandom (s : CAddrMan) (i j : Nat) : SameHomes H s (s.swapRandom i j) := by
  unfold CAddrMan.swapRandom
  split
  · exact .refl
  · have h1 := SameHomes.modify (H := H) s (s.vRandom.getD i 0)
      (f := fun info => { info with nRandomPos := j }) fun _ => rfl
    have h2 := SameHomes.modify (H := H) (s.modifyInfo (s.vRandom.getD i 0) fun info =>
      { info with nRandomPos := j }) (s.vRandom.getD j 0)
      (f := fun info => { info with nRandomPos := i }) fun _ => rfl
    exact ⟨(h1.trans h2).vvTried, (h1.trans h2).home⟩

theorem SameHomes.removeInfo (s : CAddrMan) {nId : Nat} (hout : ∀ k, nId ∉ s.vvTried k)
    (info : CAddrInfo) : SameHomes H s (s.removeInfo nId info) := by
  have hswap := SameHomes.swapRandom (H := H) s info.nRandomPos (s.vRandom.length - 1)
  refine ⟨hswap.vvTried, fun n k hk => ?_⟩
  have hne : n ≠ nId := by
    rintro rfl
    exact hout k hk
  refine Eq.trans ?_ (hswap.home n k hk)
  rw [CAddrMan.home, CAddrMan.removeInfo, AList.lookup_erase_ne hne, CAddrMan.home]

theorem SameHomes.release (s : CAddrMan) {nId : Nat} (hout : ∀ k, nId ∉ s.vvTried k) :
    SameHomes H s (s.release nId) := by
  have hmod := SameHomes.modify (H := H) s nId
    (f := fun info => { info with nRefCount := info.nRefCount - 1 }) fun _ => rfl
  unfold CAddrMan.release
  dsimp only
  generalize (s.modifyInfo nId fun info => { info with nRefCount := info.nRefCount - 1 }) = s1 at hmod
  split
  · exact hmod
  · rename_i info _
    split
    · refine hmod.trans (.removeInfo s1 ?_ info)
      rw [hmod.vvTried]
      exact hout
    · exact hmod

theorem SameHomes.dropReference (s : CAddrMan) {nId : Nat} (hout : ∀ k, nId ∉ s.vvTried k)
    (b : Fin ADDRMAN_NEW_BUCKET_COUNT) : SameHomes H s (s.dropReference b nId) :=
  ⟨(SameHomes.release (H := H) s hout).vvTried, (SameHomes.release s hout).home⟩

/-- What `ShrinkNew` drops is a member of the bucket. -/
theorem SameHomes.shrinkNew (s : CAddrMan) {b : Fin ADDRMAN_NEW_BUCKET_COUNT}
    (hout : ∀ n ∈ s.vvNew b, ∀ k, n ∉ s.vvTried k) (chance : Chance) :
    SameHomes H s (s.shrinkNew chance b) := by
  dsimp only [CAddrMan.shrinkNew]
  split
  · rename_i n hn
    exact .dropReference s (hout n (List.mem_of_find?_eq_some hn)) b
  · split
    · exact .refl
    · rename_i n hn
      refine .dropReference s (hout n ?_) b
      obtain hnone | hmem := (foldl_olderNew s _ (s.vvNew b).zipIdx none).1 n hn
      · cases hnone
      · rwa [List.zipIdx_map_fst] at hmem

theorem home_insertNew (s : CAddrMan) (b : Fin ADDRMAN_NEW_BUCKET_COUNT) (nId : Nat) :
    (s.insertNew b nId).home H = s.home H := by
  unfold CAddrMan.insertNew
  split
  · rfl
  · rfl

theorem SameHomes.insertNew (s : CAddrMan) (b : Fin ADDRMAN_NEW_BUCKET_COUNT) (nId : Nat) :
    SameHomes H s (s.insertNew b nId) := by
  unfold CAddrMan.insertNew
  split
  · exact .refl
  · exact ⟨rfl, fun _ _ _ => rfl⟩

section Kept

variable {T : Times} {m : Motion}

/-- No id stands in a new bucket and in a tried one. -/
theorem Kept.apart (h : Kept T m s) {b : Fin ADDRMAN_NEW_BUCKET_COUNT} {n : Nat}
    (hn : n ∈ s.vvNew b) (k : Fin ADDRMAN_TRIED_BUCKET_COUNT) : n ∉ s.vvTried k := by
  intro hk
  obtain ⟨r, hseat⟩ := h.tables.seat_of_new hn
  rw [h.tables.seat_of_tried hk] at hseat
  cases hseat

theorem SameHomes.addReference
    (hout : ∀ b, ∀ n ∈ s.vvNew b, ∀ k, n ∉ s.vvTried k) (chance : Chance) (nId : Nat)
    (source : CNetAddr) : SameHomes H s (s.addReference H chance nId source) := by
  dsimp only [CAddrMan.addReference]
  split
  · exact .refl
  · rename_i info _
    generalize info.getNewBucket H source = b
    split
    · exact .refl
    · have hmod := SameHomes.modify (H := H) s nId
        (f := fun info => { info with nRefCount := info.nRefCount + 1 }) fun _ => rfl
      have hvv : (s.modifyInfo nId fun info =>
          { info with nRefCount := info.nRefCount + 1 }).vvNew = s.vvNew := modifyInfo_vvNew s nId _
      generalize (s.modifyInfo nId fun info =>
        { info with nRefCount := info.nRefCount + 1 }) = s1 at hmod hvv
      have hout1 : ∀ n ∈ s1.vvNew b, ∀ k, n ∉ s1.vvTried k := by
        rw [hvv, hmod.vvTried]
        exact hout b
      split
      · exact (hmod.trans (.shrinkNew s1 hout1 chance)).trans (.insertNew _ b nId)
      · exact hmod.trans (.insertNew s1 b nId)

/-- A new id is not yet in a bucket. -/
theorem SameHomes.create (h : Kept T .still s) (addr : CAddress) (source : CNetAddr) :
    SameHomes H s (s.create addr source) := by
  refine ⟨rfl, fun nId k hk => ?_⟩
  have hne : nId ≠ s.nIdCount := by
    rintro rfl
    have hseat := h.tables.seat_of_tried hk
    rw [seat, h.listed.next_none] at hseat
    cases hseat
  rw [CAddrMan.home, CAddrMan.create, AList.lookup_insert_ne hne, CAddrMan.home]

theorem SameHomes.add (h : Kept T .still s) (chance : Chance) (addr : CAddress) (source : CNetAddr)
    (nTimePenalty : Int) : SameHomes H s (s.add H chance addr source nTimePenalty).1 := by
  have hout : ∀ b, ∀ n ∈ s.vvNew b, ∀ k, n ∉ s.vvTried k := fun b n hn => h.apart hn
  dsimp only [CAddrMan.add]
  split
  · exact .refl
  · split
    · rename_i nId info _
      have hmod := SameHomes.modify (H := H) s nId
        (f := refresh chance addr nTimePenalty) fun _ => rfl
      have hvv : (s.modifyInfo nId (refresh chance addr nTimePenalty)).vvNew = s.vvNew :=
        modifyInfo_vvNew s nId _
      generalize s.modifyInfo nId (refresh chance addr nTimePenalty) = s1 at hmod hvv
      split_ifs
      · exact hmod
      · exact hmod
      · exact hmod
      · exact hmod
      · refine hmod.trans (.addReference ?_ chance nId source)
        rw [hvv, hmod.vvTried]
        exact hout
    · have hcreate := SameHomes.create (H := H) h addr source
      have hvv : (s.create addr source).vvNew = s.vvNew := rfl
      generalize s.create addr source = s1 at hcreate hvv
      have hmod := SameHomes.modify (H := H) s1 s.nIdCount (f := fun info =>
        { info with nTime := UInt32.ofInt (max 0 (info.nTime.toNat - nTimePenalty)) }) fun _ => rfl
      have hvv1 := modifyInfo_vvNew s1 s.nIdCount fun info =>
        { info with nTime := UInt32.ofInt (max 0 (info.nTime.toNat - nTimePenalty)) }
      generalize (s1.modifyInfo s.nIdCount fun info =>
        { info with nTime := UInt32.ofInt (max 0 (info.nTime.toNat - nTimePenalty)) }) = s2
          at hmod hvv1
      have hboth := hcreate.trans hmod
      have hcount : SameHomes H s2 { s2 with nNew := s2.nNew + 1 } := ⟨rfl, fun _ _ _ => rfl⟩
      refine (hboth.trans hcount).trans (.addReference ?_ chance s.nIdCount source)
      change ∀ b, ∀ n ∈ s2.vvNew b, ∀ k, n ∉ s2.vvTried k
      rw [hvv1, hvv, hboth.vvTried]
      exact hout

end Kept

/-! An entry that becomes tried. -/

/-- An id whose home is a bucket joins it, in a free place or another's. -/
theorem Placed.join (h : Placed H s) {nId : Nat} {k : Fin ADDRMAN_TRIED_BUCKET_COUNT}
    (hhome : s.home H nId = some k) (hsame : s'.home H = s.home H)
    {l : List Nat} (hl : ∀ n ∈ l, n = nId ∨ n ∈ s.vvTried k)
    (htried : s'.vvTried = Function.update s.vvTried k l) : Placed H s' := by
  intro k' n hn
  rw [htried] at hn
  rw [hsame]
  by_cases hk : k' = k
  · subst hk
    rw [Function.update_self] at hn
    obtain rfl | hn := hl n hn
    · exact hhome
    · exact h k' n hn
  · rw [Function.update_of_ne hk] at hn
    exact h k' n hn

theorem Placed.makeTried (h : Placed H s) (chance : Chance) (nId : Nat)
    (nOrigin : Fin ADDRMAN_NEW_BUCKET_COUNT) :
    Placed H (s.makeTried H chance nId nOrigin) := by
  have hleave : SameHomes H s (s.leaveNew nId) := by
    have hmod := SameHomes.modify (H := H) s nId (f := fun info =>
      { info with nRefCount := info.nRefCount - (s.bucketsOf nId).length }) fun _ => rfl
    exact ⟨hmod.vvTried, hmod.home⟩
  have hplaced := h.same hleave
  dsimp only [CAddrMan.makeTried]
  generalize s.leaveNew nId = s1 at hleave hplaced
  split
  · exact hplaced
  · rename_i info hl
    have hhome : s1.home H nId = some (info.getTriedBucket H) := by
      rw [CAddrMan.home, hl]
      rfl
    generalize info.getTriedBucket H = k at hhome
    have hflag : ∀ s2 : CAddrMan, (s2.modifyInfo nId fun info =>
        { info with fInTried := true }).home H = s2.home H :=
      fun s2 => home_modifyInfo s2 nId fun _ => rfl
    split
    · refine hplaced.join hhome (hflag s1) (l := s1.vvTried k ++ [nId]) ?_ ?_
      · intro n hn
        rw [List.mem_append, List.mem_singleton] at hn
        exact hn.symm
      · change Function.update (s1.modifyInfo nId _).vvTried k _ = _
        rw [modifyInfo_vvTried]
    · rename_i hfull
      have hpos : 0 < (s1.vvTried k).length := by
        rw [not_lt] at hfull
        exact (Nat.succ_pos 63).trans_le hfull
      obtain ⟨hp, -⟩ := selectTried_spec s1 chance hpos
      generalize s1.selectTried chance (s1.vvTried k) = sel at hp
      obtain ⟨l, nPos⟩ := sel
      dsimp only at hp ⊢
      generalize l.getD nPos 0 = nOld
      have hmem : ∀ n ∈ l.set nPos nId, n = nId ∨ n ∈ s1.vvTried k := by
        intro n hn
        obtain hn | rfl := List.mem_or_eq_of_mem_set hn
        · exact .inr (hp.mem_iff.mp hn)
        · exact .inl rfl
      split
      · exact hplaced
      · rename_i infoOld _
        have hevict : ∀ b, (((s1.modifyInfo nOld fun info =>
            { info with fInTried := false, nRefCount := 1 }).insertNew b nOld).home H = s1.home H) ∧
            ((s1.modifyInfo nOld fun info =>
            { info with fInTried := false, nRefCount := 1 }).insertNew b nOld).vvTried = s1.vvTried := by
          intro b
          refine ⟨?_, ?_⟩
          · rw [home_insertNew]
            exact home_modifyInfo s1 nOld fun _ => rfl
          · rw [(insertNew_others _ b nOld).1, modifyInfo_vvTried]
        have hjoin : ∀ s2 : CAddrMan, s2.home H = s1.home H ∧ s2.vvTried = s1.vvTried → Placed H
            { s2.modifyInfo nId (fun info => { info with fInTried := true }) with
              nNew := (s2.modifyInfo nId fun info => { info with fInTried := true }).nNew + 1
              vvTried := Function.update
                (s2.modifyInfo nId fun info => { info with fInTried := true }).vvTried k
                (l.set nPos nId) } := by
          rintro s2 ⟨hhome2, htried2⟩
          refine hplaced.join hhome ((hflag s2).trans hhome2) hmem ?_
          rw [modifyInfo_vvTried, htried2]
        split_ifs
        · exact hjoin _ (hevict _)
        · exact hjoin _ (hevict _)

theorem Placed.good (h : Placed H s) (chance : Chance) (addr : CService) (nTime : Int) :
    Placed H (s.good H chance addr nTime) := by
  dsimp only [CAddrMan.good]
  split
  · exact h
  · rename_i nId info _
    split
    · exact h
    · have hmod := h.same (.modify s nId (f := fun info =>
        { info with nLastSuccess := nTime, nLastTry := nTime, nTime := UInt32.ofInt nTime,
                    nAttempts := 0 }) fun _ => rfl)
      split
      · exact hmod
      · split
        · exact hmod
        · exact hmod.makeTried chance nId _

theorem SameHomes.getAddr (s : CAddrMan) (chance : Chance) : SameHomes H s (s.getAddr chance).1 := by
  have hfold : ∀ (l : List Nat) (acc : CAddrMan × List CAddress),
      SameHomes H acc.1 (l.foldl (getAddrRound chance) acc).1 := by
    intro l
    induction l with
    | nil => exact fun _ => .refl
    | cons n l ih =>
      intro acc
      refine SameHomes.trans ?_ (ih _)
      rw [getAddrRound_fst]
      exact .swapRandom _ _ _
  exact hfold _ (s, [])

/-- Every call leaves tried entries in their homes. -/
theorem Placed.step {T : Times} (h : Placed H s) (hk : Kept T .still s) (op : AddrOp) :
    Placed H (s.step H op) := by
  cases op with
  | add chance addr source nTimePenalty => exact h.same (.add hk chance addr source nTimePenalty)
  | good chance addr nTime => exact h.good chance addr nTime
  | attempt addr nTime =>
    refine h.same ?_
    dsimp only [CAddrMan.step, CAddrMan.attempt]
    split
    · exact .refl
    · split
      · exact .refl
      · exact .modify s _ fun _ => rfl
  | connected addr nTime =>
    refine h.same ?_
    dsimp only [CAddrMan.step, CAddrMan.connected]
    split
    · exact .refl
    · split
      · exact .refl
      · split
        · exact .modify s _ fun _ => rfl
        · exact .refl
  | select chance => exact h
  | getAddr chance => exact h.same (.getAddr s chance)

/-- So does every run from an empty manager. -/
theorem Placed.run {T : Times} {ops : List AddrOp} (ht : ∀ op ∈ ops, op.Keeps T) :
    Placed H (run H ops) := by
  induction ops using List.reverseRecOn with
  | nil => exact fun k nId hk => by cases hk
  | append_singleton ops op ih =>
    have ht' : ∀ o ∈ ops, o.Keeps T := fun o ho => ht o (List.mem_append_left _ ho)
    rw [CAddrMan.run, List.foldl_append]
    exact (ih ht').step (Kept.run H ht').1 op

end CAddrMan

end Triangles
