import Mathlib.Data.Fintype.Basic
import Triangles.Lib.Trace
import Triangles.Model.KeyPool

/-! The key pool under any order of calls. -/

namespace Triangles.Keypool

open PoolWallet

variable {H K : Type} [DecidableEq K] {env : KeyEnv K} {w : PoolWallet K}
  {s : PoolState H K}

/-! What a call leaves of the records. -/

def PoolWallet.keyAt (w : PoolWallet K) (i : Int) : Option K := (w.pool i).map CKeyPool.vchPubKey

@[simp] theorem addNewKey_setKeyPool (i : Int) :
    (w.addNewKey env i).setKeyPool = insert i w.setKeyPool := rfl

@[simp] theorem addNewKey_keys (i : Int) :
    (w.addNewKey env i).keys = insert (env.newKey w.nGenerated) w.keys := rfl

@[simp] theorem addNewKey_nGenerated (i : Int) :
    (w.addNewKey env i).nGenerated = w.nGenerated + 1 := rfl

@[simp] theorem addNewKey_fLocked (i : Int) : (w.addNewKey env i).fLocked = w.fLocked := rfl

theorem addNewKey_keyAt (i j : Int) : (w.addNewKey env i).keyAt j =
    if j = i then some (env.newKey w.nGenerated) else w.keyAt j := by
  simp only [PoolWallet.keyAt, PoolWallet.addNewKey, writePool, generateNewKey, newKeyPoolEntry,
    Function.update_apply]
  split <;> rfl

omit [DecidableEq K] in
theorem erasePool_keyAt (i j : Int) : (w.erasePool i).keyAt j =
    if j = i then none else w.keyAt j := by
  simp only [PoolWallet.keyAt, erasePool, Function.update_apply]
  split <;> rfl

omit [DecidableEq K] in
theorem keyAt_eq_some {i : Int} {k : K} (h : w.keyAt i = some k) :
    ∃ r, w.pool i = some r ∧ r.vchPubKey = k := by
  simpa [PoolWallet.keyAt] using h

omit [DecidableEq K] in
/-- The next index is past every index of the set. -/
theorem lt_nEnd {i : Int} (hi : i ∈ w.setKeyPool) : i < w.nEnd := by
  have hne : w.setKeyPool.Nonempty := ⟨i, hi⟩
  have hle := w.setKeyPool.le_max' i hi
  simp only [nEnd, hne, ↓reduceDIte]
  omega

omit [DecidableEq K] in
theorem nEnd_pos (h : ∀ i ∈ w.setKeyPool, 0 < i) : 0 < w.nEnd := by
  by_cases hne : w.setKeyPool.Nonempty
  · have := h _ (w.setKeyPool.max'_mem hne)
    simp only [nEnd, hne, ↓reduceDIte]
    omega
  · simp [nEnd, hne]

omit [DecidableEq K] in
theorem nEnd_of_max {m : Int} (hm : m ∈ w.setKeyPool) (hle : ∀ i ∈ w.setKeyPool, i ≤ m) :
    w.nEnd = m + 1 := by
  have hne : w.setKeyPool.Nonempty := ⟨m, hm⟩
  have hmax : w.setKeyPool.max' hne = m :=
    le_antisymm (Finset.max'_le _ _ _ hle) (Finset.le_max' _ _ hm)
  rw [nEnd, dif_pos hne, hmax]

theorem nEnd_addNewKey : (w.addNewKey env w.nEnd).nEnd = w.nEnd + 1 := by
  apply nEnd_of_max (Finset.mem_insert_self _ _)
  intro i hi
  rcases Finset.mem_insert.mp hi with rfl | hi
  · exact le_rfl
  · exact (lt_nEnd hi).le

/-- Every index of the set has a record, of a key in the store. -/
def Recorded (w : PoolWallet K) : Prop :=
  ∀ i ∈ w.setKeyPool, ∃ k ∈ w.keys, w.keyAt i = some k

theorem Recorded.addNewKey (h : Recorded w) (i : Int) : Recorded (w.addNewKey env i) := by
  intro j hj
  simp only [addNewKey_keyAt, addNewKey_keys]
  by_cases hji : j = i
  · exact ⟨_, Finset.mem_insert_self _ _, if_pos hji⟩
  · obtain ⟨k, hk, hkj⟩ := h j ((Finset.mem_insert.mp hj).resolve_left hji)
    exact ⟨k, Finset.mem_insert_of_mem hk, by rw [if_neg hji, hkj]⟩

theorem Recorded.topUpLoop (h : Recorded w) (nTarget rounds : Nat) :
    Recorded (w.topUpLoop env nTarget rounds) := by
  induction rounds generalizing w with
  | zero => exact h
  | succ rounds ih =>
    rw [PoolWallet.topUpLoop]
    split
    · exact ih (h.addNewKey _)
    · exact h

theorem Recorded.topUpKeyPool (h : Recorded w) (nSize : UInt32) :
    Recorded (w.topUpKeyPool env nSize).2 := by
  rw [PoolWallet.topUpKeyPool]
  split
  · exact h
  · exact h.topUpLoop _ _

/-! The condition and the property. -/

/-- Every index of the set has a record of a key in the store, so that the next reservation does not
throw, and no key is out with two holders. -/
def PoolSafe (env : KeyEnv K) (s : PoolState H K) : Prop :=
  (∀ i ∈ s.wallet.setKeyPool, ∃ r, s.wallet.pool i = some r ∧ r.vchPubKey ∈ s.wallet.keys) ∧
    (s.wallet.reserveKeyFromKeyPool env).1.thrown = none ∧ (s.handed.map Prod.snd).Nodup

def TopsUp (env : KeyEnv K) (w : PoolWallet K) (nSize : UInt32) (i : Int) : Prop :=
  w.fLocked = false ∧ w.nEnd ≤ i ∧ i < w.nEnd + (targetSize env nSize - w.setKeyPool.card : Nat)

/-- The call writes a record under the index. -/
def Writes (env : KeyEnv K) (s : PoolState H K) : PoolCall H → Int → Prop
  | .topUpKeyPool nSize, i => TopsUp env s.wallet nSize i
  | .newKeyPool, i => s.wallet.fLocked = false ∧ 1 ≤ i ∧ i ≤ (nKeys env : Int)
  | .getReservedKey h, i => (s.holder h).nIndex = -1 ∧ TopsUp env s.wallet 0 i
  | .getKeyFromPool _ _, i => TopsUp env s.wallet 0 i
  | _, _ => False

instance (nSize : UInt32) (i : Int) : Decidable (TopsUp env w nSize i) :=
  inferInstanceAs (Decidable (_ ∧ _))

instance (c : PoolCall H) (i : Int) : Decidable (Writes env s c i) :=
  match c with
  | .topUpKeyPool nSize => inferInstanceAs (Decidable (TopsUp env s.wallet nSize i))
  | .newKeyPool => inferInstanceAs (Decidable (_ ∧ _))
  | .getReservedKey _ => inferInstanceAs (Decidable (_ ∧ _))
  | .getKeyFromPool _ _ => inferInstanceAs (Decidable (TopsUp env s.wallet 0 i))
  | .lock | .unlock | .keepKey _ | .returnKey _ => inferInstanceAs (Decidable False)

/-- The call writes no record under an index that a holder has reserved. -/
def SparesHeld (env : KeyEnv K) (s : PoolState H K) (c : PoolCall H) : Prop :=
  ∀ h, (s.holder h).nIndex ≠ -1 → ¬Writes env s c (s.holder h).nIndex

instance [Fintype H] (c : PoolCall H) : Decidable (SparesHeld env s c) :=
  inferInstanceAs (Decidable (∀ _, _))

/-- A pool as a wallet file has it, with no holder yet. -/
structure Loaded (env : KeyEnv K) (s : PoolState H K) : Prop where
  record : ∀ i ∈ s.wallet.setKeyPool, 0 < i ∧ ∃ k ∈ s.wallet.keys, s.wallet.keyAt i = some k
  distinct : ∀ i ∈ s.wallet.setKeyPool, ∀ j ∈ s.wallet.setKeyPool,
    s.wallet.keyAt i = s.wallet.keyAt j → i = j
  fresh : ∀ n, s.wallet.nGenerated ≤ n → env.newKey n ∉ s.wallet.keys
  holders : ∀ h, (s.holder h).nIndex = -1
  handed : s.handed = []

structure Sound (env : KeyEnv K) (s : PoolState H K) : Prop where
  record : ∀ i ∈ s.wallet.setKeyPool, 0 < i ∧
    ∃ k ∈ s.wallet.keys, s.wallet.keyAt i = some k ∧ k ∉ s.handed.map Prod.snd
  distinct : ∀ i ∈ s.wallet.setKeyPool, ∀ j ∈ s.wallet.setKeyPool,
    s.wallet.keyAt i = s.wallet.keyAt j → i = j
  held : ∀ h, (s.holder h).nIndex ≠ -1 → 0 < (s.holder h).nIndex ∧
    (s.holder h).nIndex ∉ s.wallet.setKeyPool ∧
    ∃ k, s.wallet.keyAt (s.holder h).nIndex = some k ∧ (s.holder h).vchPubKey = some k ∧
      (h, k) ∈ s.handed
  nodup : (s.handed.map Prod.snd).Nodup
  known : ∀ p ∈ s.handed, p.2 ∈ s.wallet.keys
  fresh : ∀ n, s.wallet.nGenerated ≤ n → env.newKey n ∉ s.wallet.keys

omit [DecidableEq K] in
theorem Loaded.sound (h : Loaded env s) : Sound env s where
  record i hi := by
    obtain ⟨hpos, k, hk, hr⟩ := h.record i hi
    exact ⟨hpos, k, hk, hr, by simp [h.handed]⟩
  distinct := h.distinct
  held k hk := absurd (h.holders k) hk
  nodup := by simp [h.handed]
  known := by simp [h.handed]
  fresh := h.fresh

omit [DecidableEq K] in
theorem Sound.recorded (h : Sound env s) : Recorded s.wallet := by
  intro i hi
  obtain ⟨-, k, hk, hki, -⟩ := h.record i hi
  exact ⟨k, hk, hki⟩

omit [DecidableEq K] in
/-- The record under a reserved index says who has reserved it. -/
theorem Sound.alone (h : Sound env s) {a b : H} (ha : (s.holder a).nIndex ≠ -1)
    (hab : (s.holder a).nIndex = (s.holder b).nIndex) : a = b := by
  obtain ⟨-, -, k, hk, -, hka⟩ := h.held a ha
  obtain ⟨-, -, l, hl, -, hlb⟩ := h.held b (hab ▸ ha)
  rw [← hab, hk, Option.some.injEq] at hl
  subst hl
  exact congrArg Prod.fst (List.inj_on_of_nodup_map h.nodup hka hlb rfl)

/-! Writing new keys. -/

/-- A new key under an index that is neither in the set nor reserved. -/
theorem Sound.addNewKey (hgen : Function.Injective env.newKey) (h : Sound env s) {i : Int}
    (hpos : 0 < i) (hset : i ∉ s.wallet.setKeyPool)
    (hfree : ∀ a, (s.holder a).nIndex ≠ -1 → (s.holder a).nIndex ≠ i) :
    Sound env { s with wallet := s.wallet.addNewKey env i } := by
  have hnew := h.fresh _ le_rfl
  have hin : ∀ j ∈ s.wallet.setKeyPool, j ≠ i := fun j hj e => hset (e ▸ hj)
  have hnone : ∀ j ∈ s.wallet.setKeyPool,
      s.wallet.keyAt j ≠ some (env.newKey s.wallet.nGenerated) := by
    intro j hj he
    obtain ⟨-, k, hk, hkj, -⟩ := h.record j hj
    rw [hkj, Option.some.injEq] at he
    exact hnew (he ▸ hk)
  constructor
  case record =>
    intro j hj
    simp only [addNewKey_setKeyPool, Finset.mem_insert] at hj
    simp only [addNewKey_keys, addNewKey_keyAt, Finset.mem_insert]
    rcases hj with rfl | hj
    · refine ⟨hpos, _, .inl rfl, if_pos rfl, ?_⟩
      intro hout
      obtain ⟨p, hp, hpk⟩ := List.mem_map.mp hout
      exact hnew (hpk ▸ h.known p hp)
    · obtain ⟨hj0, k, hk, hkj, hn⟩ := h.record j hj
      exact ⟨hj0, k, .inr hk, by rw [if_neg (hin j hj), hkj], hn⟩
  case distinct =>
    intro j hj l hl
    simp only [addNewKey_setKeyPool, Finset.mem_insert] at hj hl
    simp only [addNewKey_keyAt]
    rcases hj with rfl | hj <;> rcases hl with rfl | hl
    · exact fun _ => rfl
    · rw [if_pos rfl, if_neg (hin l hl)]
      exact fun e => absurd e.symm (hnone l hl)
    · rw [if_pos rfl, if_neg (hin j hj)]
      exact fun e => absurd e (hnone j hj)
    · rw [if_neg (hin j hj), if_neg (hin l hl)]
      exact h.distinct j hj l hl
  case held =>
    intro a ha
    obtain ⟨ha0, hmem, k, hk, hv, hout⟩ := h.held a ha
    refine ⟨ha0, ?_, k, ?_, hv, hout⟩
    · simp [hmem, hfree a ha]
    · rw [addNewKey_keyAt, if_neg (hfree a ha), hk]
  case nodup => exact h.nodup
  case known => exact fun p hp => Finset.mem_insert_of_mem (h.known p hp)
  case fresh =>
    intro n hn
    simp only [addNewKey_nGenerated] at hn
    simp only [addNewKey_keys, Finset.mem_insert, not_or]
    refine ⟨fun e => ?_, h.fresh n (by omega)⟩
    have := hgen e
    omega

/-- The loop of a top-up, which writes from the next index on. -/
theorem Sound.topUpLoop (hgen : Function.Injective env.newKey) (h : Sound env s) (nTarget : Nat)
    (hfree : ∀ a, (s.holder a).nIndex ≠ -1 → ¬(s.wallet.nEnd ≤ (s.holder a).nIndex ∧
      (s.holder a).nIndex < s.wallet.nEnd + (nTarget - s.wallet.setKeyPool.card : Nat)))
    (rounds : Nat) :
    Sound env { s with wallet := s.wallet.topUpLoop env nTarget rounds } := by
  induction rounds generalizing s with
  | zero => exact h
  | succ rounds ih =>
    rw [PoolWallet.topUpLoop]
    split
    · rename_i hlt
      have hset : s.wallet.nEnd ∉ s.wallet.setKeyPool := fun hi => lt_irrefl _ (lt_nEnd hi)
      apply ih (s := { s with wallet := s.wallet.addNewKey env s.wallet.nEnd })
      · apply h.addNewKey hgen (nEnd_pos fun i hi => (h.record i hi).1) hset
        intro a ha he
        apply hfree a ha
        omega
      · intro a ha
        have hcard : (insert s.wallet.nEnd s.wallet.setKeyPool).card =
            s.wallet.setKeyPool.card + 1 := Finset.card_insert_of_notMem hset
        simp only [nEnd_addNewKey, addNewKey_setKeyPool, hcard]
        have := hfree a ha
        omega
    · exact h

theorem Sound.topUpKeyPool (hgen : Function.Injective env.newKey) (h : Sound env s)
    (nSize : UInt32)
    (hfree : ∀ a, (s.holder a).nIndex ≠ -1 → ¬TopsUp env s.wallet nSize (s.holder a).nIndex) :
    Sound env { s with wallet := (s.wallet.topUpKeyPool env nSize).2 } := by
  rw [PoolWallet.topUpKeyPool]
  cases hl : s.wallet.fLocked with
  | true => simpa using h
  | false =>
    apply h.topUpLoop hgen
    intro a ha
    have := hfree a ha
    simpa only [TopsUp, hl, true_and] using this

omit [DecidableEq K] in
/-- The set empty, and no record that a holder has reserved gone. -/
theorem Sound.clear (h : Sound env s) : Sound env { s with wallet := { s.wallet with
    pool := fun i => if i ∈ s.wallet.setKeyPool then none else s.wallet.pool i
    setKeyPool := ∅ } } where
  record i hi := absurd hi (Finset.notMem_empty i)
  distinct i hi := absurd hi (Finset.notMem_empty i)
  held a ha := by
    obtain ⟨ha0, hmem, k, hk, hv, hout⟩ := h.held a ha
    refine ⟨ha0, Finset.notMem_empty _, k, ?_, hv, hout⟩
    simpa only [PoolWallet.keyAt, if_neg hmem] using hk
  nodup := h.nodup
  known := h.known
  fresh := h.fresh

/-- The loop of `NewKeyPool`, some rounds into it. -/
theorem Sound.newKeys (hgen : Function.Injective env.newKey) (h : Sound env s)
    (hempty : s.wallet.setKeyPool = ∅) (n : Nat)
    (hfree : ∀ a, (s.holder a).nIndex ≠ -1 →
      ¬(1 ≤ (s.holder a).nIndex ∧ (s.holder a).nIndex ≤ n)) :
    let w := (List.range n).foldl (fun w (i : Nat) => w.addNewKey env (i + 1)) s.wallet
    Sound env { s with wallet := w } ∧ ∀ i ∈ w.setKeyPool, i ≤ (n : Int) := by
  induction n with
  | zero => exact ⟨h, by simp [hempty]⟩
  | succ n ih =>
    obtain ⟨hs, hle⟩ := ih fun a ha hn => hfree a ha ⟨hn.1, by omega⟩
    simp only [List.range_succ, List.foldl_append, List.foldl_cons, List.foldl_nil]
    constructor
    · apply hs.addNewKey hgen (by omega)
      · intro hmem
        have := hle _ hmem
        omega
      · intro a ha he
        simp only at ha he
        exact hfree a ha (by omega)
    · intro i hi
      rcases Finset.mem_insert.mp hi with rfl | hi
      · push_cast
        exact le_rfl
      · have := hle i hi
        omega

theorem Sound.newKeyPool (hgen : Function.Injective env.newKey) (h : Sound env s)
    (hfree : ∀ a, (s.holder a).nIndex ≠ -1 → ¬(s.wallet.fLocked = false ∧
      1 ≤ (s.holder a).nIndex ∧ (s.holder a).nIndex ≤ (nKeys env : Int))) :
    Sound env { s with wallet := (s.wallet.newKeyPool env).2 } := by
  rw [PoolWallet.newKeyPool]
  split
  · exact h.clear
  · rename_i hl
    refine (h.clear.newKeys hgen rfl (nKeys env) ?_).1
    intro a ha hn
    exact hfree a ha ⟨by simpa using hl, hn⟩

/-! Taking keys. -/

/-- A key taken from the set: nothing when the set is empty, and otherwise its record, which does
not throw. -/
theorem Recorded.takeKey (h : Recorded w) :
    (w.setKeyPool = ∅ ∧ w.takeKey = ({}, w)) ∨
    ∃ i ∈ w.setKeyPool, ∃ r, w.pool i = some r ∧
      w.takeKey = (⟨i, some r, none⟩, { w with setKeyPool := w.setKeyPool.erase i }) := by
  by_cases hne : w.setKeyPool.Nonempty
  · right
    have hmem := w.setKeyPool.min'_mem hne
    obtain ⟨k, hk, hkr⟩ := h _ hmem
    obtain ⟨r, hr, rfl⟩ := keyAt_eq_some hkr
    refine ⟨_, hmem, r, hr, ?_⟩
    simp only [PoolWallet.takeKey, hne, ↓reduceDIte, hr, hk, ↓reduceIte]
  · left
    rw [Finset.not_nonempty_iff_eq_empty] at hne
    exact ⟨hne, by simp [PoolWallet.takeKey, hne]⟩

/-- With a record for every index the next reservation does not throw, whatever it writes. -/
theorem Recorded.reserve_thrown (h : Recorded w) :
    (w.reserveKeyFromKeyPool env).1.thrown = none := by
  rw [PoolWallet.reserveKeyFromKeyPool]
  have htop : Recorded (w.topUpKeyPool env 0).2 := h.topUpKeyPool 0
  obtain ⟨-, heq⟩ | ⟨i, -, r, -, heq⟩ := htop.takeKey <;> rw [heq]

omit [DecidableEq K] in
/-- A key of the set handed to somebody, its record still there. -/
theorem Sound.hand (h : Sound env s) {i : Int} {k : K} (hi : i ∈ s.wallet.setKeyPool)
    (hk : s.wallet.keyAt i = some k) (a : H) :
    Sound env { s with
      wallet := { s.wallet with setKeyPool := s.wallet.setKeyPool.erase i }
      handed := (a, k) :: s.handed } := by
  obtain ⟨-, k', hkeys, hk', hout⟩ := h.record i hi
  rw [hk, Option.some.injEq] at hk'
  subst hk'
  constructor
  case record =>
    intro j hj
    obtain ⟨hne, hj⟩ := Finset.mem_erase.mp hj
    obtain ⟨hj0, l, hl, hlj, hn⟩ := h.record j hj
    refine ⟨hj0, l, hl, hlj, ?_⟩
    simp only [List.map_cons, List.mem_cons, not_or]
    refine ⟨fun e => hne ?_, hn⟩
    exact h.distinct j hj i hi (by rw [hlj, hk, e])
  case distinct =>
    intro j hj l hl
    exact h.distinct j (Finset.mem_of_mem_erase hj) l (Finset.mem_of_mem_erase hl)
  case held =>
    intro b hb
    obtain ⟨hb0, hmem, l, hl, hv, hin⟩ := h.held b hb
    exact ⟨hb0, fun hm => hmem (Finset.mem_of_mem_erase hm), l, hl, hv, List.mem_cons_of_mem _ hin⟩
  case nodup => exact List.nodup_cons.mpr ⟨hout, h.nodup⟩
  case known =>
    intro p hp
    rcases List.mem_cons.mp hp with rfl | hp
    · exact hkeys
    · exact h.known p hp
  case fresh => exact h.fresh

omit [DecidableEq K] in
/-- A holder that lets go of its index, or takes one that has been handed to it. -/
theorem Sound.setHolder [DecidableEq H] (h : Sound env s) (a : H) {r : CReserveKey K}
    (hr : r.nIndex ≠ -1 → 0 < r.nIndex ∧ r.nIndex ∉ s.wallet.setKeyPool ∧
      ∃ k, s.wallet.keyAt r.nIndex = some k ∧ r.vchPubKey = some k ∧ (a, k) ∈ s.handed) :
    Sound env { s with holder := Function.update s.holder a r } where
  record := h.record
  distinct := h.distinct
  held b := by
    by_cases hb : b = a
    · subst hb
      simpa using hr
    · simpa [hb] using h.held b
  nodup := h.nodup
  known := h.known
  fresh := h.fresh

omit [DecidableEq K] in
/-- The record of an index that is neither in the set nor reserved goes. -/
theorem Sound.erasePool (h : Sound env s) {i : Int} (hset : i ∉ s.wallet.setKeyPool)
    (hfree : ∀ a, (s.holder a).nIndex ≠ -1 → (s.holder a).nIndex ≠ i) :
    Sound env { s with wallet := s.wallet.erasePool i } where
  record j hj := by
    obtain ⟨hj0, k, hk, hkj, hn⟩ := h.record j hj
    have hne : j ≠ i := fun e => hset (e ▸ hj)
    exact ⟨hj0, k, hk, by rw [erasePool_keyAt, if_neg hne, hkj], hn⟩
  distinct j hj l hl := by
    have hji : j ≠ i := fun e => hset (e ▸ hj)
    have hli : l ≠ i := fun e => hset (e ▸ hl)
    simp only [erasePool_keyAt, if_neg hji, if_neg hli]
    exact h.distinct j hj l hl
  held a ha := by
    obtain ⟨ha0, hmem, k, hk, hv, hin⟩ := h.held a ha
    exact ⟨ha0, hmem, k, by rw [erasePool_keyAt, if_neg (hfree a ha), hk], hv, hin⟩
  nodup := h.nodup
  known := h.known
  fresh := h.fresh

/-- An index back in the set, with the key that its record has. -/
theorem Sound.giveBack [DecidableEq H] (h : Sound env s) {i : Int} {a : H} {k : K} (hpos : 0 < i)
    (hk : s.wallet.keyAt i = some k) (hin : (a, k) ∈ s.handed)
    (hfree : ∀ b, (s.holder b).nIndex ≠ -1 → (s.holder b).nIndex ≠ i ∧
      (s.holder b).vchPubKey ≠ some k) :
    Sound env { s with
      wallet := s.wallet.returnKey i
      handed := s.handed.filter (· ∉ [(a, k)]) } where
  record j hj := by
    rcases Finset.mem_insert.mp hj with rfl | hj
    · refine ⟨hpos, k, h.known _ hin, hk, ?_⟩
      intro hout
      obtain ⟨p, hp, hpk⟩ := List.mem_map.mp hout
      obtain ⟨hp, hne⟩ := List.mem_filter.mp hp
      have : p = (a, k) := List.inj_on_of_nodup_map h.nodup hp hin hpk
      simp [this] at hne
    · obtain ⟨hj0, l, hl, hlj, hn⟩ := h.record j hj
      refine ⟨hj0, l, hl, hlj, fun hout => hn ?_⟩
      obtain ⟨p, hp, hpk⟩ := List.mem_map.mp hout
      exact List.mem_map.mpr ⟨p, (List.mem_filter.mp hp).1, hpk⟩
  distinct j hj l hl := by
    have hnone : ∀ m ∈ s.wallet.setKeyPool, s.wallet.keyAt m ≠ s.wallet.keyAt i := by
      intro m hm he
      obtain ⟨-, l, -, hlm, hn⟩ := h.record m hm
      rw [hlm, hk, Option.some.injEq] at he
      exact hn (he ▸ List.mem_map_of_mem (f := Prod.snd) hin)
    intro he
    rcases Finset.mem_insert.mp hj with rfl | hj' <;> rcases Finset.mem_insert.mp hl with rfl | hl'
    · rfl
    · exact absurd he.symm (hnone l hl')
    · exact absurd he (hnone j hj')
    · exact h.distinct j hj' l hl' he
  held b hb := by
    obtain ⟨hb0, hmem, l, hl, hv, hbin⟩ := h.held b hb
    obtain ⟨hne, hnk⟩ := hfree b hb
    refine ⟨hb0, ?_, l, hl, hv, ?_⟩
    · simp [PoolWallet.returnKey, hne, hmem]
    · have hlk : l ≠ k := fun e => hnk (e ▸ hv)
      simp [hbin, hlk]
  nodup := (List.filter_sublist.map _).nodup h.nodup
  known p hp := h.known p (List.mem_filter.mp hp).1
  fresh := h.fresh

theorem Sound.generate (hgen : Function.Injective env.newKey) (h : Sound env s) (a : H) :
    Sound env { s with
      wallet := s.wallet.generateNewKey env
      handed := (a, env.newKey s.wallet.nGenerated) :: s.handed } := by
  have hnew := h.fresh _ le_rfl
  constructor
  case record =>
    intro j hj
    obtain ⟨hj0, k, hk, hkj, hn⟩ := h.record j hj
    refine ⟨hj0, k, Finset.mem_insert_of_mem hk, hkj, ?_⟩
    simp only [List.map_cons, List.mem_cons, not_or]
    exact ⟨fun e => hnew (e ▸ hk), hn⟩
  case distinct => exact h.distinct
  case held =>
    intro b hb
    obtain ⟨hb0, hmem, k, hk, hv, hin⟩ := h.held b hb
    exact ⟨hb0, hmem, k, hk, hv, List.mem_cons_of_mem _ hin⟩
  case nodup =>
    refine List.nodup_cons.mpr ⟨fun hout => ?_, h.nodup⟩
    obtain ⟨p, hp, hpk⟩ := List.mem_map.mp hout
    have hin := h.known p hp
    rw [hpk] at hin
    exact hnew hin
  case known =>
    intro p hp
    rcases List.mem_cons.mp hp with rfl | hp
    · exact Finset.mem_insert_self _ _
    · exact Finset.mem_insert_of_mem (h.known p hp)
  case fresh =>
    intro n hn
    have hn' : s.wallet.nGenerated + 1 ≤ n := hn
    refine fun hk => (Finset.mem_insert.mp hk).elim (fun e => ?_) (h.fresh n (by omega))
    have := hgen e
    omega

/-! The calls. -/

/-- A sound state keeps its holders through a top-up, and what is then taken. -/
theorem Sound.reserve (hgen : Function.Injective env.newKey) (h : Sound env s)
    (hfree : ∀ a, (s.holder a).nIndex ≠ -1 → ¬TopsUp env s.wallet 0 (s.holder a).nIndex) :
    ∃ w, Sound env { s with wallet := w } ∧
      ((w.setKeyPool = ∅ ∧ s.wallet.reserveKeyFromKeyPool env = ({}, w)) ∨
      ∃ i ∈ w.setKeyPool, ∃ r, w.pool i = some r ∧
        s.wallet.reserveKeyFromKeyPool env =
          (⟨i, some r, none⟩, { w with setKeyPool := w.setKeyPool.erase i })) :=
  ⟨_, h.topUpKeyPool hgen 0 hfree, (h.topUpKeyPool hgen 0 hfree).recorded.takeKey⟩

variable [DecidableEq H]

theorem Sound.getReservedKey (hgen : Function.Injective env.newKey) (h : Sound env s) (a : H)
    (hfree : SparesHeld env s (.getReservedKey a)) : Sound env (s.call env (.getReservedKey a)) := by
  by_cases ha : (s.holder a).nIndex = -1
  · obtain ⟨w, hw, ⟨-, heq⟩ | ⟨i, hi, r, hr, heq⟩⟩ := h.reserve hgen fun b hb ht =>
      hfree b hb ⟨ha, ht⟩
    · have hs := hw.setHolder a (r := ⟨-1, s.wallet.vchDefaultKey⟩) (fun hne => absurd rfl hne)
      simpa [PoolState.call, CReserveKey.getReservedKey, ha, heq, CReserveKey.reserved] using hs
    · have hpos := (hw.record i hi).1
      have hk : w.keyAt i = some r.vchPubKey := by simp [PoolWallet.keyAt, hr]
      have hne : i ≠ -1 := by omega
      have hs := (hw.hand hi hk a).setHolder a (r := ⟨i, some r.vchPubKey⟩)
        (fun _ => ⟨hpos, Finset.notMem_erase _ _, _, hk, rfl, List.mem_cons_self⟩)
      simpa [PoolState.call, CReserveKey.getReservedKey, ha, heq, CReserveKey.reserved, hne] using hs
  · have hs : s.call env (.getReservedKey a) = s := by
      simp [PoolState.call, CReserveKey.getReservedKey, ha]
    exact hs.symm ▸ h

theorem Sound.keepKey (h : Sound env s) (a : H) : Sound env (s.call env (.keepKey a)) := by
  have hs := h.setHolder a (r := {}) (fun hne => absurd rfl hne)
  by_cases ha : (s.holder a).nIndex = -1
  · simpa [PoolState.call, CReserveKey.keepKey, ha] using hs
  · have hf := hs.erasePool (h.held a ha).2.1 fun b hb he => by
      by_cases hba : b = a
      · subst hba
        simp at hb
      · simp only [Function.update_of_ne hba] at hb he
        exact hba (h.alone hb he)
    simpa [PoolState.call, CReserveKey.keepKey, ha, PoolWallet.keepKey] using hf

theorem Sound.returnKey (h : Sound env s) (a : H) : Sound env (s.call env (.returnKey a)) := by
  have hs := h.setHolder a (r := {}) (fun hne => absurd rfl hne)
  by_cases ha : (s.holder a).nIndex = -1
  · simpa [PoolState.call, CReserveKey.returnKey, ha, CReserveKey.reserved] using hs
  · obtain ⟨hpos, -, k, hk, hv, hin⟩ := h.held a ha
    have hf := hs.giveBack hpos hk hin fun b hb => by
      by_cases hba : b = a
      · subst hba
        simp at hb
      · simp only [Function.update_of_ne hba] at hb ⊢
        refine ⟨fun he => hba (h.alone hb he), fun he => hba ?_⟩
        obtain ⟨-, -, l, -, hl, hbin⟩ := h.held b hb
        rw [hl, Option.some.injEq] at he
        subst he
        exact congrArg Prod.fst (List.inj_on_of_nodup_map h.nodup hbin hin rfl)
    simpa [PoolState.call, CReserveKey.returnKey, ha, CReserveKey.reserved, hv] using hf

theorem Sound.getKeyFromPool (hgen : Function.Injective env.newKey) (h : Sound env s) (a : H)
    (fAllowReuse : Bool) (hfree : SparesHeld env s (.getKeyFromPool a fAllowReuse)) :
    Sound env (s.call env (.getKeyFromPool a fAllowReuse)) := by
  obtain ⟨w, hw, ⟨-, heq⟩ | ⟨i, hi, r, hr, heq⟩⟩ := h.reserve hgen hfree
  · have hnew := hw.generate hgen a
    cases fAllowReuse <;> cases hd : w.vchDefaultKey <;> cases hl : w.fLocked <;>
      simp only [PoolState.call, PoolWallet.getKeyFromPool, heq, hd, hl] <;> first
        | exact hnew
        | exact hw
  · have hk : w.keyAt i = some r.vchPubKey := by simp [PoolWallet.keyAt, hr]
    have hf := (hw.hand hi hk a).erasePool (Finset.notMem_erase _ _) fun b hb he =>
      (hw.held b hb).2.1 (he ▸ hi)
    simpa [PoolState.call, PoolWallet.getKeyFromPool, heq, PoolWallet.keepKey] using hf

theorem Sound.call (hgen : Function.Injective env.newKey) (h : Sound env s) (c : PoolCall H)
    (hfree : SparesHeld env s c) : Sound env (s.call env c) := by
  cases c with
  | lock => exact ⟨h.record, h.distinct, h.held, h.nodup, h.known, h.fresh⟩
  | unlock => exact ⟨h.record, h.distinct, h.held, h.nodup, h.known, h.fresh⟩
  | topUpKeyPool nSize => exact h.topUpKeyPool hgen nSize hfree
  | newKeyPool => exact h.newKeyPool hgen hfree
  | getReservedKey a => exact h.getReservedKey hgen a hfree
  | keepKey a => exact h.keepKey a
  | returnKey a => exact h.returnKey a
  | getKeyFromPool a fAllowReuse => exact h.getKeyFromPool hgen a fAllowReuse hfree

omit [DecidableEq H] in
theorem Sound.poolSafe (h : Sound env s) : PoolSafe env s := by
  refine ⟨fun i hi => ?_, h.recorded.reserve_thrown, h.nodup⟩
  obtain ⟨k, hk, hki⟩ := h.recorded i hi
  obtain ⟨r, hr, rfl⟩ := keyAt_eq_some hki
  exact ⟨r, hr, hk⟩

/-- In a run from a loaded pool whose calls write no record under a reserved index, every state it
reaches is safe. -/
theorem key_pool_safe (hgen : Function.Injective env.newKey) (h : Loaded env s)
    {calls : List (PoolCall H)}
    (hspares : ∀ x ∈ Trace.trace (PoolState.call env) s calls, SparesHeld env x.1 x.2) :
    ∀ p, p <+: calls → PoolSafe env (s.run env p) := by
  intro p hp
  apply Sound.poolSafe
  exact Trace.prefixes_of_trace (P := SparesHeld env) (fun _ c hs hc => hs.call hgen c hc) h.sound
    hspares p hp

def emptyPool : PoolState H K := { wallet := {} }

omit [DecidableEq H] [DecidableEq K] in
theorem emptyPool_loaded : Loaded env (emptyPool : PoolState H K) where
  record i hi := absurd hi (Finset.notMem_empty i)
  distinct i hi := absurd hi (Finset.notMem_empty i)
  fresh _ _ := Finset.notMem_empty _
  holders _ := rfl
  handed := rfl

def smallEnv : KeyEnv Nat := ⟨0, id, fun _ => 0⟩

theorem key_pool_safe_restart : PoolSafe smallEnv ((emptyPool : PoolState Bool Nat).run smallEnv
    [.getReservedKey false, .keepKey false, .lock, .unlock, .getReservedKey true, .returnKey true,
      .newKeyPool]) :=
  key_pool_safe Function.injective_id emptyPool_loaded (by decide) _ List.prefix_rfl

/-- Two holders reserve the index 1, one after the other, since the set is empty in between. With
the first key kept, the index comes back without its record, and the next reservation throws; with
the first index returned, the next holder gets the second key too. -/
theorem key_pool_restarts_at_one :
    let kept := (emptyPool : PoolState Nat Nat).run smallEnv
      [.getReservedKey 0, .getReservedKey 1, .keepKey 0, .returnKey 1]
    let returned := (emptyPool : PoolState Nat Nat).run smallEnv
      [.getReservedKey 0, .getReservedKey 1, .returnKey 0, .getReservedKey 2]
    Loaded smallEnv (emptyPool : PoolState Nat Nat) ∧ ¬PoolSafe smallEnv kept ∧
      kept.wallet.setKeyPool = {1} ∧ kept.wallet.pool 1 = none ∧
      (kept.wallet.reserveKeyFromKeyPool smallEnv).1.thrown =
        some "ReserveKeyFromKeyPool() : read failed" ∧
      ¬PoolSafe smallEnv returned ∧ returned.handed = [(2, 1), (1, 1)] := by
  intro kept returned
  have hthrown : (kept.wallet.reserveKeyFromKeyPool smallEnv).1.thrown =
      some "ReserveKeyFromKeyPool() : read failed" := by decide
  have hhanded : returned.handed = [(2, 1), (1, 1)] := by decide
  refine ⟨emptyPool_loaded, fun hs => ?_, by decide, by decide, hthrown,
    fun hs => ?_, hhanded⟩
  · have hnone := hs.2.1
    simp [hthrown] at hnone
  · have hnodup := hs.2.2
    simp [hhanded] at hnodup

end Triangles.Keypool
