import Triangles.Lib.Sums
import Triangles.Model.UtilText

/-! How far peers can move the clock: the offset is the median of the last samples, and small, unless
most of these are the least 64-bit number. -/

namespace Triangles.TimeData

variable {calls before : List Call} {call : Call} {t t' : TimeData}

/-! What `abs64` and the median make of the least number. -/

theorem wrapInt64_of_range {n : Int} (h : InInt64 n) : wrapInt64 n = n := by
  unfold InInt64 at h
  apply Int.bmod_eq_of_le <;> omega

theorem abs64_of_ne {n : Int} (h : InInt64 n) (hne : n ≠ -2 ^ 63) : abs64 n = |n| := by
  unfold abs64
  split_ifs with hn
  · exact (abs_of_nonneg hn).symm
  · unfold InInt64 at h
    rw [abs_of_neg (by omega), wrapInt64_of_range]
    unfold InInt64
    omega

theorem abs64_least : abs64 (-2 ^ 63) = -2 ^ 63 := by decide

/-- The entry at a place of the sorted list is the least number if and only if that stands often
enough in the list. -/
theorem ranked_eq_least {l : List Int} {i : Nat} (hi : i < l.length) {m : Int}
    (hm : ∀ n ∈ l, m ≤ n) : ranked l i 0 = m ↔ i < l.count m := by
  have hle : m ≤ ranked l i 0 := by
    rw [le_ranked_iff hi, List.countP_eq_zero.mpr]
    · exact Nat.zero_le i
    · intro n hn
      simpa using hm n hn
  have hcount : l.countP (fun n => decide (n < m + 1)) = l.count m := by
    apply List.countP_congr
    intro n hn
    have hmn := hm n hn
    simp only [decide_eq_true_eq, beq_iff_eq]
    omega
  have hmore := le_ranked_iff hi (m + 1) 0
  rw [hcount] at hmore
  omega

theorem ranked_mem {l : List Int} {i : Nat} (hi : i < l.length) : ranked l i 0 ∈ l := by
  have hi' : i < (l.insertionSort (· ≤ ·)).length := by rwa [List.length_insertionSort]
  rw [ranked, List.getD_eq_getElem _ _ hi']
  exact (List.perm_insertionSort (· ≤ ·) l).subset (List.getElem_mem hi')

/-! The samples. -/

/-- The offsets that are put in, when these peers are known: the first one of every peer. -/
def samplesFrom (known : Finset CNetAddr) : List Call → List Int
  | [] => []
  | call :: calls =>
    if call.ip ∈ known then samplesFrom known calls
    else (call.nTime - call.now) :: samplesFrom (insert call.ip known) calls

def samples (calls : List Call) : List Int := 0 :: samplesFrom ∅ calls

def window (calls : List Call) : List Int := (samples calls).drop ((samples calls).length - 200)

theorem samplesFrom_concat (known : Finset CNetAddr) (calls : List Call) (call : Call) :
    samplesFrom known (calls ++ [call]) = samplesFrom known calls ++
      if call.ip ∈ known ∨ call.ip ∈ calls.map Call.ip then [] else [call.nTime - call.now] := by
  induction calls generalizing known with
  | nil => simp [samplesFrom]
  | cons c calls ih =>
    simp only [List.cons_append, samplesFrom, ih, Finset.mem_insert, List.map_cons, List.mem_cons]
    by_cases hc : c.ip ∈ known
    · by_cases heq : call.ip = c.ip
      · simp [hc, heq]
      · simp [hc, heq]
    · simp only [if_neg hc, List.cons_append]
      congr 3
      rw [eq_iff_iff]
      tauto

theorem samples_known (h : call.ip ∈ calls.map Call.ip) : samples (calls ++ [call]) = samples calls := by
  rw [samples, samplesFrom_concat, if_pos (.inr h), List.append_nil]
  rfl

theorem samples_fresh (h : call.ip ∉ calls.map Call.ip) :
    samples (calls ++ [call]) = samples calls ++ [call.nTime - call.now] := by
  rw [samples, samplesFrom_concat, if_neg (by simpa using h)]
  rfl

theorem window_fresh (h : call.ip ∉ calls.map Call.ip) : window (calls ++ [call]) =
    (if (window calls).length = 200 then (window calls).drop 1 else window calls) ++
      [call.nTime - call.now] := by
  have hwindow : ∀ l : List Int, ∀ n : Int, (l ++ [n]).drop ((l ++ [n]).length - 200) =
      (if (l.drop (l.length - 200)).length = 200 then (l.drop (l.length - 200)).drop 1
        else l.drop (l.length - 200)) ++ [n] := by
    intro l n
    rw [List.length_append, List.length_singleton, List.length_drop]
    split_ifs with hfull
    · have hn : l.length + 1 - 200 = l.length - 200 + 1 := by omega
      rw [List.drop_drop, hn, List.drop_append_of_le_length (by omega)]
    · have hn : l.length + 1 - 200 = l.length - 200 := by omega
      rw [hn, List.drop_append_of_le_length (by omega)]
  rw [window, samples_fresh h]
  exact hwindow _ _

theorem window_range (h : ∀ call ∈ calls, InInt64 (call.nTime - call.now)) :
    ∀ n ∈ window calls, InInt64 n := by
  have hfrom : ∀ (calls : List Call) (known : Finset CNetAddr),
      (∀ call ∈ calls, InInt64 (call.nTime - call.now)) → ∀ n ∈ samplesFrom known calls, InInt64 n := by
    intro calls
    induction calls with
    | nil => simp [samplesFrom]
    | cons c calls ih =>
      intro known h n hn
      have hrest : ∀ call ∈ calls, InInt64 (call.nTime - call.now) := fun call hcall =>
        h call (List.mem_cons_of_mem c hcall)
      simp only [samplesFrom] at hn
      split_ifs at hn
      · exact ih _ hrest n hn
      · rcases List.mem_cons.mp hn with rfl | hn
        · exact h c List.mem_cons_self
        · exact ih _ hrest n hn
  intro n hn
  rcases List.mem_cons.mp (List.mem_of_mem_drop hn) with rfl | hn
  · unfold InInt64
    decide
  · exact hfrom calls ∅ h n hn

/-! The runs. -/

/-- The filter holds the window, and every peer is known. -/
structure Filled (calls : List Call) (t : TimeData) : Prop where
  known : ∀ ip, ip ∈ t.setKnown ↔ ip ∈ calls.map Call.ip
  size : t.vTimeOffsets.nSize = 200
  values : t.vTimeOffsets.vValues = window calls
  sorted : t.vTimeOffsets.vSorted = (window calls).insertionSort (· ≤ ·)

/-- The call puts a sample in, and then there is an odd number of them. -/
def Updates (before : List Call) (call : Call) : Prop :=
  call.ip ∉ before.map Call.ip ∧ 5 ≤ (window (before ++ [call])).length ∧
    (window (before ++ [call])).length % 2 = 1

def medianOf (l : List Int) : Int := ranked l (l.length / 2) 0

/-- What `adjust` makes of the median, in the arithmetic of the code. -/
theorem Filled.adjust (h : Filled calls t) (hodd : (window calls).length % 2 = 1) :
    ∃ t', t.adjust = some t' ∧ Filled calls t' ∧
      t'.nTimeOffset = if abs64 (medianOf (window calls)) < 70 * 60 then medianOf (window calls) else 0 := by
  have hlen : t.vTimeOffsets.vSorted.length = (window calls).length := by
    rw [h.sorted, List.length_insertionSort]
  have hmedian : t.vTimeOffsets.median (fun a b => (wrapInt64 (a + b)).tdiv 2) =
      some (medianOf (window calls)) := by
    rw [CMedianFilter.median]
    simp only [hlen, hodd, if_true]
    rw [medianOf, ranked, ← h.sorted, List.getD_eq_getElem?_getD,
      List.getElem?_eq_getElem (by omega), Option.getD_some]
  simp only [TimeData.adjust, hmedian, Option.bind_eq_bind, Option.bind_some]
  generalize medianOf (window calls) = nMedian
  generalize (70 * 60 : Int) = limit
  by_cases hsmall : abs64 nMedian < limit
  · simp only [if_pos hsmall]
    exact ⟨_, rfl, ⟨h.known, h.size, h.values, h.sorted⟩, rfl⟩
  · simp only [if_neg hsmall]
    -- the warning does not matter
    split_ifs
    all_goals exact ⟨_, rfl, ⟨h.known, h.size, h.values, h.sorted⟩, rfl⟩

/-- A call: the state that it leaves and the offset in it. -/
theorem Filled.addTimeData (h : Filled calls t) (hrange : InInt64 (call.nTime - call.now)) :
    ∃ t', t.addTimeData call = some t' ∧ Filled (calls ++ [call]) t' ∧
      (Updates calls call → t'.nTimeOffset =
        if abs64 (medianOf (window (calls ++ [call]))) < 70 * 60 then medianOf (window (calls ++ [call]))
        else 0) ∧
      (¬ Updates calls call → t'.nTimeOffset = t.nTimeOffset) := by
  rw [TimeData.addTimeData]
  by_cases hknown : call.ip ∈ calls.map Call.ip
  · rw [if_pos ((h.known call.ip).mpr hknown)]
    have hwindow : window (calls ++ [call]) = window calls := by
      rw [window, samples_known hknown]
      rfl
    refine ⟨t, rfl, ⟨fun ip => ?_, h.size, by rw [hwindow]; exact h.values, by rw [hwindow]; exact h.sorted⟩,
      fun hup => absurd hknown hup.1, fun _ => rfl⟩
    rw [h.known, List.map_append, List.mem_append]
    refine ⟨.inl, fun hip => hip.elim id fun hip => ?_⟩
    rwa [List.mem_singleton.mp hip]
  · rw [if_neg fun hin => hknown ((h.known call.ip).mp hin)]
    have hfilled : Filled (calls ++ [call]) { t with
        setKnown := insert call.ip t.setKnown
        vTimeOffsets := t.vTimeOffsets.input (wrapInt64 (call.nTime - call.now)) } := by
      have hvalues : (t.vTimeOffsets.input (wrapInt64 (call.nTime - call.now))).vValues =
          window (calls ++ [call]) := by
        rw [window_fresh hknown, wrapInt64_of_range hrange, ← h.values]
        simp only [CMedianFilter.input, h.size]
      refine ⟨fun ip => ?_, h.size, hvalues, ?_⟩
      · simp [h.known, or_comm]
      · rw [← hvalues]
        rfl
    have hsize : (t.vTimeOffsets.input (wrapInt64 (call.nTime - call.now))).size =
        (window (calls ++ [call])).length := congrArg List.length hfilled.values
    simp only [hsize]
    by_cases hodd : 5 ≤ (window (calls ++ [call])).length ∧ (window (calls ++ [call])).length % 2 = 1
    · rw [if_pos hodd]
      obtain ⟨t', hadjust, hfilled', hoffset⟩ := hfilled.adjust hodd.2
      exact ⟨t', hadjust, hfilled', fun _ => hoffset, fun hnot => absurd ⟨hknown, hodd⟩ hnot⟩
    · rw [if_neg hodd]
      exact ⟨_, rfl, hfilled, fun hup => absurd hup.2 hodd, fun _ => rfl⟩

theorem filled_run (h : ∀ call ∈ calls, InInt64 (call.nTime - call.now)) :
    ∃ t, run calls = some t ∧ Filled calls t := by
  induction calls using List.reverseRecOn with
  | nil => exact ⟨{}, rfl, by simp, rfl, rfl, rfl⟩
  | append_singleton calls call ih =>
    obtain ⟨t, hrun, hfilled⟩ := ih fun c hc => h c (List.mem_append_left _ hc)
    obtain ⟨t', hadd, hfilled', -⟩ := hfilled.addTimeData (h call (by simp))
    refine ⟨t', ?_, hfilled'⟩
    rw [run] at hrun ⊢
    rw [List.foldlM_append, hrun]
    simpa using hadd

/-- The state that a call leaves, from the state before it. -/
theorem run_concat (h : ∀ c ∈ calls ++ [call], InInt64 (c.nTime - c.now)) :
    ∃ t t', run calls = some t ∧ run (calls ++ [call]) = some t' ∧
      (Updates calls call → t'.nTimeOffset =
        if abs64 (medianOf (window (calls ++ [call]))) < 70 * 60 then medianOf (window (calls ++ [call]))
        else 0) ∧
      (¬ Updates calls call → t'.nTimeOffset = t.nTimeOffset) := by
  obtain ⟨t, hrun, hfilled⟩ := filled_run fun c hc => h c (List.mem_append_left _ hc)
  obtain ⟨t', hadd, -, hup, hkeep⟩ := hfilled.addTimeData (h call (by simp))
  refine ⟨t, t', hrun, ?_, hup, hkeep⟩
  rw [run] at hrun ⊢
  rw [List.foldlM_append, hrun]
  simpa using hadd

/-- The offset is small, and after an update it is the median of the window if that is small. -/
structure Bounded (calls : List Call) (t : TimeData) : Prop where
  small : |t.nTimeOffset| < 70 * 60
  median : ∀ before call, calls = before ++ [call] → Updates before call →
    t.nTimeOffset = if |medianOf (window calls)| < 70 * 60 then medianOf (window calls) else 0

/-- At an update no more than half of the samples in the window are -2^63. -/
def FewLeast (calls : List Call) : Prop :=
  ∀ before call, calls = before ++ [call] → Updates before call →
    2 * (window calls).count (-2 ^ 63) ≤ (window calls).length

theorem median_eq_least (h : ∀ call ∈ calls, InInt64 (call.nTime - call.now))
    (hodd : (window calls).length % 2 = 1) :
    medianOf (window calls) = -2 ^ 63 ↔ ¬ 2 * (window calls).count (-2 ^ 63) ≤ (window calls).length := by
  have hleast : ∀ n ∈ window calls, (-2 ^ 63 : Int) ≤ n := fun n hn => (window_range h n hn).1
  rw [medianOf, ranked_eq_least (by omega) hleast]
  omega

theorem median_range (h : ∀ call ∈ calls, InInt64 (call.nTime - call.now))
    (hodd : (window calls).length % 2 = 1) : InInt64 (medianOf (window calls)) :=
  window_range h _ (ranked_mem (by omega))

/-- In every run whose samples fit into 64 bits: the offset is always small and the median of the window
after every update, or 0 where that is too large, if and only if at no update more than half of the
samples of the window are -2^63. -/
theorem run_bounded_iff (calls : List Call) (h : ∀ call ∈ calls, InInt64 (call.nTime - call.now)) :
    (∀ p, p <+: calls → ∃ t, run p = some t ∧ Bounded p t) ↔ ∀ p, p <+: calls → FewLeast p := by
  have hpart : ∀ {p}, p <+: calls → ∀ call ∈ p, InInt64 (call.nTime - call.now) := fun hp call hcall =>
    h call (hp.subset hcall)
  constructor
  · rintro hall p hp before call rfl hup
    obtain ⟨t, hrun, hbounded⟩ := hall _ hp
    obtain ⟨-, t', -, hrun', hoffset, -⟩ := run_concat (hpart hp)
    obtain rfl : t = t' := by simpa [hrun] using hrun'
    by_contra hmany
    have hleast := (median_eq_least (hpart hp) hup.2.2).mpr hmany
    have hsmall := hbounded.small
    rw [hoffset hup, hleast, if_pos (by rw [abs64_least]; decide)] at hsmall
    exact absurd hsmall (by decide)
  · intro hall p
    induction p using List.reverseRecOn with
    | nil =>
      intro _
      refine ⟨{}, rfl, by decide, ?_⟩
      intro before call hnil
      simp at hnil
    | append_singleton before call ih =>
      intro hp
      obtain ⟨t, hrun, hbounded⟩ := ih ((List.prefix_append before [call]).trans hp)
      obtain ⟨t₀, t', hrun₀, hrun', hoffset, hkeep⟩ := run_concat (hpart hp)
      obtain rfl : t = t₀ := by simpa [hrun] using hrun₀
      refine ⟨t', hrun', ?_⟩
      by_cases hup : Updates before call
      · have hne : medianOf (window (before ++ [call])) ≠ -2 ^ 63 := fun hleast =>
          (median_eq_least (hpart hp) hup.2.2).mp hleast (hall _ hp before call rfl hup)
        have hmedian := hoffset hup
        rw [abs64_of_ne (median_range (hpart hp) hup.2.2) hne] at hmedian
        refine ⟨?_, fun _ _ _ _ => hmedian⟩
        rw [hmedian]
        split_ifs with hsmall
        · exact hsmall
        · decide
      · refine ⟨by rw [hkeep hup]; exact hbounded.small, fun before' call' heq hup' => ?_⟩
        obtain ⟨hbefore, hcall⟩ := List.append_inj' heq rfl
        rw [hbefore, List.singleton_inj.mp hcall] at hup
        exact absurd hup' hup

namespace Sample

/-- Four peers whose clocks are 2^63 seconds behind. -/
def behind : List Call :=
  [⟨1700000000, ⟨[1]⟩, 1700000000 - 2 ^ 63⟩, ⟨1700000000, ⟨[2]⟩, 1700000000 - 2 ^ 63⟩,
    ⟨1700000000, ⟨[3]⟩, 1700000000 - 2 ^ 63⟩, ⟨1700000000, ⟨[4]⟩, 1700000000 - 2 ^ 63⟩]

/-- Four peers whose clocks are right. -/
def right : List Call :=
  [⟨1700000000, ⟨[1]⟩, 1700000000⟩, ⟨1700000000, ⟨[2]⟩, 1700000000⟩,
    ⟨1700000000, ⟨[3]⟩, 1700000000⟩, ⟨1700000000, ⟨[4]⟩, 1700000000⟩]

end Sample

/-- The samples of four peers move the clock by 2^63 seconds. -/
theorem behind_moves_clock : (∀ call ∈ Sample.behind, InInt64 (call.nTime - call.now)) ∧
    ¬ ∀ p, p <+: Sample.behind → ∃ t, run p = some t ∧ Bounded p t := by
  refine ⟨by unfold InInt64; decide, fun hall => ?_⟩
  obtain ⟨t, hrun, hbounded⟩ := hall _ List.prefix_rfl
  have hoffset : (run Sample.behind).map TimeData.nTimeOffset = some (-2 ^ 63) := by decide
  rw [hrun, Option.map_some, Option.some_inj] at hoffset
  have hsmall := hbounded.small
  rw [hoffset] at hsmall
  exact absurd hsmall (by decide)

theorem right_bounded : (∀ p, p <+: Sample.right → ∃ t, run p = some t ∧ Bounded p t) ↔
    ∀ p, p <+: Sample.right → FewLeast p :=
  run_bounded_iff Sample.right (by unfold InInt64; decide)

end Triangles.TimeData
