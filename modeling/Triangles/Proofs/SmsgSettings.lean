import Mathlib.Algebra.BigOperators.Group.List.Basic
import Mathlib.Data.List.TakeWhile
import Triangles.Model.SmsgSettings

/-! The settings of secure messaging: `smsg.ini` is read as it was written, and when disabling and
enabling keeps the settings. -/

namespace Triangles

/-! What the lines of a file say. -/

def flagValues (name : List UInt8) (pairs : List (List UInt8 × List UInt8)) : List Bool :=
  pairs.filterMap fun p => if p.1 = name then some (p.2 == ascii "true") else none

def keyValues (pairs : List (List UInt8 × List UInt8)) : List SecMsgAddress :=
  pairs.filterMap fun p => if p.1 = ascii "key" then scanKey p.2 else none

def SmsgSettings.pairs (s : SmsgSettings) : List (List UInt8 × List UInt8) :=
  (s.ini.map fun text => (iniLines text.length text).filterMap iniPair).getD []

def readPairs (s : SecMsgOptions × List SecMsgAddress) (pairs : List (List UInt8 × List UInt8)) :
    SecMsgOptions × List SecMsgAddress :=
  ({ fNewAddressRecv := (flagValues (ascii "newAddressRecv") pairs).getLastD s.1.fNewAddressRecv
     fNewAddressAnon := (flagValues (ascii "newAddressAnon") pairs).getLastD s.1.fNewAddressAnon },
    s.2 ++ keyValues pairs)

theorem readPairs_nil (s : SecMsgOptions × List SecMsgAddress) : readPairs s [] = s := by
  simp [readPairs, flagValues, keyValues]

theorem readIniLine_none {cLine : List UInt8} (h : iniPair cLine = none)
    (s : SecMsgOptions × List SecMsgAddress) : readIniLine s cLine = s := by
  rw [readIniLine, h]

theorem names_ne : ascii "newAddressRecv" ≠ ascii "newAddressAnon" ∧
    ascii "newAddressRecv" ≠ ascii "key" ∧ ascii "newAddressAnon" ≠ ascii "key" := by decide

theorem readPairs_cons {cLine : List UInt8} {p : List UInt8 × List UInt8}
    (h : iniPair cLine = some p) (s : SecMsgOptions × List SecMsgAddress)
    (pairs : List (List UInt8 × List UInt8)) :
    readPairs s (p :: pairs) = readPairs (readIniLine s cLine) pairs := by
  obtain ⟨hra, hrk, hak⟩ := names_ne
  obtain ⟨pName, pValue⟩ := p
  simp only [readIniLine, h, readPairs, flagValues, keyValues, List.filterMap_cons]
  by_cases hr : pName = ascii "newAddressRecv"
  · subst hr
    simp only [if_pos, if_neg hra, if_neg hrk, List.getLastD_cons]
  · by_cases ha : pName = ascii "newAddressAnon"
    · subst ha
      simp only [if_pos, if_neg hra.symm, if_neg hak, List.getLastD_cons]
    · by_cases hk : pName = ascii "key"
      · subst hk
        simp only [if_pos, if_neg hrk.symm, if_neg hak.symm]
        cases scanKey pValue with
        | none => rfl
        | some address => simp
      · simp only [if_neg hr, if_neg ha, if_neg hk]

/-- The loop of `SecureMsgReadIni` reads the pairs of the lines. -/
theorem foldl_readIniLine (lines : List (List UInt8)) (s : SecMsgOptions × List SecMsgAddress) :
    lines.foldl readIniLine s = readPairs s (lines.filterMap iniPair) := by
  induction lines generalizing s with
  | nil => exact (readPairs_nil s).symm
  | cons cLine lines ih =>
    rw [List.foldl_cons, ih]
    cases h : iniPair cLine with
    | none => rw [List.filterMap_cons_none h, readIniLine_none h]
    | some p => rw [List.filterMap_cons_some h, readPairs_cons h]

/-! A file that was written. -/

/-- The text of an address: base58 characters, and room for the end in 64 bytes. -/
structure AddressText (sAddress : List UInt8) : Prop where
  pos : 0 < sAddress.length
  room : sAddress.length ≤ 63
  chars : ∀ c ∈ sAddress, c ∈ pszBase58

/-- What a line may hold: no end of a line or of a string, and not too much. -/
def LineText (l : List UInt8) : Prop :=
  l.length < 511 ∧ ∀ c ∈ l, c ≠ 0 ∧ c ≠ 0x0a ∧ c ≠ 0x0d

instance (l : List UInt8) : Decidable (LineText l) := inferInstanceAs (Decidable (_ ∧ _))

theorem fgets_line {l : List UInt8} (h : LineText l) (rest : List UInt8) :
    fgets (l ++ 0x0a :: rest) = (l ++ [0x0a], rest) := by
  have htake : (l ++ 0x0a :: rest).takeWhile (· != 0x0a) = l := by
    rw [List.takeWhile_append_of_pos, List.takeWhile_cons_of_neg (by decide), List.append_nil]
    intro c hc
    simpa using (h.2 c hc).2.1
  have hsplit : l ++ 0x0a :: rest = (l ++ [0x0a]) ++ rest := by simp
  have hlen : min 511 (l.length + 1) = (l ++ [0x0a]).length := by
    rw [List.length_append, List.length_singleton]
    have := h.1
    omega
  simp only [fgets, htake, hlen]
  rw [hsplit, List.take_left, List.drop_left]

theorem iniLines_flatMap {lines : List (List UInt8)} (h : ∀ l ∈ lines, LineText l) {rounds : Nat}
    (hr : lines.length ≤ rounds) :
    iniLines rounds (lines.flatMap fun l => l ++ [0x0a]) = lines := by
  induction lines generalizing rounds with
  | nil => cases rounds <;> rfl
  | cons l lines ih =>
    obtain ⟨n, rfl⟩ : ∃ n, rounds = n + 1 := ⟨rounds - 1, by rw [List.length_cons] at hr; omega⟩
    have hl := h l List.mem_cons_self
    have htext : (l :: lines).flatMap (fun l => l ++ [0x0a]) =
        l ++ 0x0a :: lines.flatMap fun l => l ++ [0x0a] := by simp
    have hne : (l ++ 0x0a :: lines.flatMap fun l => l ++ [0x0a]).isEmpty = false := by simp
    have hcut : (l ++ [0x0a]).takeWhile (fun c => c != 0 && c != 0x0a && c != 0x0d) = l := by
      rw [List.takeWhile_append_of_pos, List.takeWhile_cons_of_neg (by decide), List.append_nil]
      intro c hc
      simpa [and_assoc] using hl.2 c hc
    rw [htext, iniLines, if_neg (by rw [hne]; decide)]
    simp only [fgets_line hl, hcut]
    rw [ih (fun l hm => h l (List.mem_cons_of_mem _ hm)) (by rw [List.length_cons] at hr; omega)]

/-- The line of an address, as `SecureMsgWriteIni` writes it, without its end. -/
def keyLine (it : SecMsgAddress) : List UInt8 :=
  ascii "key=" ++ cStr it.sAddress ++ ascii "|" ++ flagText it.fReceiveEnabled ++ ascii "|" ++
    flagText it.fReceiveAnon

def writtenLines (smsgOptions : SecMsgOptions) (smsgAddresses : List SecMsgAddress) :
    List (List UInt8) :=
  [ascii "[Options]", ascii "newAddressRecv=" ++ boolText smsgOptions.fNewAddressRecv,
    ascii "newAddressAnon=" ++ boolText smsgOptions.fNewAddressAnon, [], ascii "[Keys]"] ++
  smsgAddresses.map keyLine

theorem iniText_eq (smsgOptions : SecMsgOptions) (smsgAddresses : List SecMsgAddress) :
    iniText smsgOptions smsgAddresses =
      (writtenLines smsgOptions smsgAddresses).flatMap fun l => l ++ [0x0a] := by
  have hend : ascii "\n" = [0x0a] := by decide
  have hoptions : ascii "[Options]\n" = ascii "[Options]" ++ [0x0a] := by decide
  have hkeys : ascii "\n[Keys]\n" = 0x0a :: (ascii "[Keys]" ++ [0x0a]) := by decide
  simp [iniText, writtenLines, keyLine, hend, hoptions, hkeys, List.flatMap_map]

/-- The digits of addresses, the flags behind an address, the name before it, and the other lines. -/
theorem fixed_texts :
    (∀ c ∈ pszBase58, c ≠ 0 ∧ c ≠ 0x0a ∧ c ≠ 0x0d ∧ c ≠ 0x3d ∧ c ≠ 0x7c) ∧
    (∀ a b : Bool, LineText (ascii "|" ++ flagText a ++ ascii "|" ++ flagText b) ∧
      (ascii "|" ++ flagText a ++ ascii "|" ++ flagText b).length = 4 ∧
      ∀ c ∈ ascii "|" ++ flagText a ++ ascii "|" ++ flagText b, c ≠ 0x3d) ∧
    (LineText (ascii "key=") ∧ (ascii "key=").length = 4) ∧
    (∀ a b : Bool, ∀ l ∈ [ascii "[Options]", ascii "newAddressRecv=" ++ boolText a,
      ascii "newAddressAnon=" ++ boolText b, [], ascii "[Keys]"], LineText l) := by
  decide +kernel

theorem base58_chars : ∀ c ∈ pszBase58, c ≠ 0 ∧ c ≠ 0x0a ∧ c ≠ 0x0d ∧ c ≠ 0x3d ∧ c ≠ 0x7c :=
  fixed_texts.1

theorem AddressText.cStr_eq {sAddress : List UInt8} (h : AddressText sAddress) :
    cStr sAddress = sAddress := by
  rw [cStr, List.takeWhile_eq_self_iff]
  intro c hc
  simpa using (base58_chars c (h.chars c hc)).1

def flagsText (it : SecMsgAddress) : List UInt8 :=
  ascii "|" ++ flagText it.fReceiveEnabled ++ ascii "|" ++ flagText it.fReceiveAnon

theorem keyLine_eq {it : SecMsgAddress} (h : AddressText it.sAddress) :
    keyLine it = ascii "key=" ++ (it.sAddress ++ flagsText it) := by
  simp [keyLine, flagsText, h.cStr_eq]

theorem keyLine_text {it : SecMsgAddress} (h : AddressText it.sAddress) :
    LineText (keyLine it) := by
  have hkey : LineText (ascii "key=") ∧ (ascii "key=").length = 4 := fixed_texts.2.2.1
  obtain ⟨hfl, hflen, -⟩ := fixed_texts.2.1 it.fReceiveEnabled it.fReceiveAnon
  rw [keyLine_eq h]
  refine ⟨?_, fun c hc => ?_⟩
  · have hroom := h.room
    rw [List.length_append, List.length_append, hkey.2, flagsText, hflen]
    omega
  · rcases List.mem_append.mp hc with hc | hc
    · exact hkey.1.2 c hc
    · rcases List.mem_append.mp hc with hc | hc
      · obtain ⟨h0, hn, hr, -⟩ := base58_chars c (h.chars c hc)
        exact ⟨h0, hn, hr⟩
      · exact hfl.2 c hc

/-- A line is a name and a value when the sign between them is in neither. -/
theorem iniPair_line {c : UInt8} {pName pValue : List UInt8}
    (hc : [0x23, 0x5b, 0x3d].contains c = false) (hname : ∀ b ∈ c :: pName, b ≠ 0x3d)
    (hvalue : ∀ b ∈ pValue, b ≠ 0x3d) (hne : pValue ≠ []) :
    iniPair (c :: pName ++ 0x3d :: pValue) = some (c :: pName, pValue) := by
  have hname' : ∀ b ∈ c :: pName, (b != 0x3d) = true := fun b hb => by simpa using hname b hb
  have hall : pValue.takeWhile (· != 0x3d) = pValue := by
    rw [List.takeWhile_eq_self_iff]
    exact fun b hb => by simpa using hvalue b hb
  have hskip : pValue.dropWhile (· == 0x3d) = pValue := by
    rw [List.dropWhile_eq_self_iff]
    intro hlen
    simpa using hvalue _ (List.getElem_mem hlen)
  have htake : (c :: pName ++ 0x3d :: pValue).takeWhile (· != 0x3d) = c :: pName := by
    rw [List.takeWhile_append_of_pos hname', List.takeWhile_cons_of_neg (by decide), List.append_nil]
  have hrest : ((c :: pName ++ 0x3d :: pValue).dropWhile (· != 0x3d)).dropWhile (· == 0x3d) =
      pValue := by
    rw [List.dropWhile_append_of_pos hname', List.dropWhile_cons_of_neg (by decide),
      List.dropWhile_cons_of_pos (by decide), hskip]
  have hsome : pValue.isEmpty = false := by simpa using hne
  rw [iniPair, List.cons_append, List.isEmpty_cons, List.headD_cons, hc, ← List.cons_append]
  simp only [hrest, htake, hall, hsome, Bool.or_self, Bool.false_eq_true, if_false]

theorem iniPair_keyLine {it : SecMsgAddress} (h : AddressText it.sAddress) :
    iniPair (keyLine it) = some (ascii "key", it.sAddress ++ flagsText it) := by
  have hflags : ∀ a b : Bool, ∀ c ∈ ascii "|" ++ flagText a ++ ascii "|" ++ flagText b,
      c ≠ 0x3d := fun a b => (fixed_texts.2.1 a b).2.2
  have hvalue : ∀ c ∈ it.sAddress ++ flagsText it, c ≠ 0x3d := by
    intro c hc
    rcases List.mem_append.mp hc with hc | hc
    · exact (base58_chars c (h.chars c hc)).2.2.2.1
    · exact hflags _ _ c hc
  have hne : it.sAddress ++ flagsText it ≠ [] := by
    intro hnil
    have hpos := h.pos
    rw [(List.append_eq_nil_iff.mp hnil).1, List.length_nil] at hpos
    omega
  have hshape : keyLine it = 0x6b :: [0x65, 0x79] ++ 0x3d :: (it.sAddress ++ flagsText it) := by
    rw [keyLine_eq h]
    rfl
  rw [hshape, iniPair_line (by decide) (by simp) hvalue hne]
  rfl

theorem scanInt_flags (a b : Bool) :
    scanInt (flagText a ++ ascii "|" ++ flagText b) =
        some ((a.toNat : Int), 0x7c :: flagText b) ∧
      scanInt (flagText b) = some ((b.toNat : Int), []) := by
  revert a b
  decide

theorem scanKey_written {it : SecMsgAddress} (h : AddressText it.sAddress) :
    scanKey (it.sAddress ++ flagsText it) = some it := by
  have hbar : ∀ c ∈ it.sAddress, (c != 0x7c) = true := by
    intro c hc
    simpa using (base58_chars c (h.chars c hc)).2.2.2.2
  have hflags : flagsText it = 0x7c ::
      (flagText it.fReceiveEnabled ++ ascii "|" ++ flagText it.fReceiveAnon) := by
    simp [flagsText, show ascii "|" = [0x7c] from by decide]
  have htake : ((it.sAddress ++ flagsText it).take 64).takeWhile (· != 0x7c) = it.sAddress := by
    have hroom := h.room
    obtain ⟨n, hn⟩ : ∃ n, 64 - it.sAddress.length = n + 1 := ⟨63 - it.sAddress.length, by omega⟩
    rw [List.take_append, List.take_of_length_le (by omega), hn, hflags, List.take_succ_cons,
      List.takeWhile_append_of_pos hbar, List.takeWhile_cons_of_neg (by decide), List.append_nil]
  obtain ⟨hfirst, hsecond⟩ := scanInt_flags it.fReceiveEnabled it.fReceiveAnon
  have hne : it.sAddress.isEmpty = false := by
    simpa using List.ne_nil_of_length_pos h.pos
  have hdrop : (it.sAddress ++ flagsText it).drop it.sAddress.length = flagsText it :=
    List.drop_left
  rw [hflags] at hdrop htake ⊢
  rw [scanKey, htake]
  simp only [hdrop, hne, List.headD_cons, List.drop_succ_cons, List.drop_zero, hfirst, hsecond]
  obtain ⟨sAddress, fReceiveEnabled, fReceiveAnon⟩ := it
  cases fReceiveEnabled <;> cases fReceiveAnon <;> rfl

theorem filterMap_writtenLines (smsgOptions : SecMsgOptions) {smsgAddresses : List SecMsgAddress}
    (h : ∀ it ∈ smsgAddresses, AddressText it.sAddress) :
    (writtenLines smsgOptions smsgAddresses).filterMap iniPair =
      (ascii "newAddressRecv", boolText smsgOptions.fNewAddressRecv) ::
      (ascii "newAddressAnon", boolText smsgOptions.fNewAddressAnon) ::
      smsgAddresses.map fun it => (ascii "key", it.sAddress ++ flagsText it) := by
  have hhead : ∀ a b : Bool, [ascii "[Options]", ascii "newAddressRecv=" ++ boolText a,
      ascii "newAddressAnon=" ++ boolText b, [], ascii "[Keys]"].filterMap iniPair =
      [(ascii "newAddressRecv", boolText a), (ascii "newAddressAnon", boolText b)] := by decide
  have hkeys : (smsgAddresses.map keyLine).filterMap iniPair =
      smsgAddresses.map fun it => (ascii "key", it.sAddress ++ flagsText it) := by
    rw [List.filterMap_map, ← List.filterMap_eq_map]
    exact List.filterMap_congr fun it hit => iniPair_keyLine (h it hit)
  rw [writtenLines, List.filterMap_append, hhead, hkeys]
  rfl

/-- The lines that are read are those that were written. -/
theorem iniLines_iniText (smsgOptions : SecMsgOptions) {smsgAddresses : List SecMsgAddress}
    (h : ∀ it ∈ smsgAddresses, AddressText it.sAddress) :
    iniLines (iniText smsgOptions smsgAddresses).length (iniText smsgOptions smsgAddresses) =
      writtenLines smsgOptions smsgAddresses := by
  have htext : ∀ l ∈ writtenLines smsgOptions smsgAddresses, LineText l := by
    have hhead : ∀ a b : Bool, ∀ l ∈ [ascii "[Options]", ascii "newAddressRecv=" ++ boolText a,
        ascii "newAddressAnon=" ++ boolText b, [], ascii "[Keys]"], LineText l := fixed_texts.2.2.2
    intro l hl
    rcases List.mem_append.mp hl with hl | hl
    · exact hhead _ _ l hl
    · obtain ⟨it, hit, rfl⟩ := List.mem_map.mp hl
      exact keyLine_text (h it hit)
  have hrounds : (writtenLines smsgOptions smsgAddresses).length ≤
      (iniText smsgOptions smsgAddresses).length := by
    rw [iniText_eq, List.length_flatMap]
    simp
  rw [iniText_eq] at hrounds ⊢
  exact iniLines_flatMap htext hrounds

/-- The lines of the addresses give no option a value. -/
theorem flagValues_keys (smsgAddresses : List SecMsgAddress) {name : List UInt8}
    (hname : name ≠ ascii "key") :
    flagValues name (smsgAddresses.map fun it => (ascii "key", it.sAddress ++ flagsText it)) =
      [] := by
  simp [flagValues, hname.symm]

theorem keyValues_keys {smsgAddresses : List SecMsgAddress}
    (h : ∀ it ∈ smsgAddresses, AddressText it.sAddress) :
    keyValues (smsgAddresses.map fun it => (ascii "key", it.sAddress ++ flagsText it)) =
      smsgAddresses := by
  rw [keyValues, List.filterMap_map]
  refine (List.filterMap_congr fun it hit => ?_).trans List.filterMap_some
  simpa using scanKey_written (h it hit)

/-- What `SecureMsgWriteIni` wrote is what `SecureMsgReadIni` reads. -/
theorem readIni_iniText (smsgOptions : SecMsgOptions) {smsgAddresses : List SecMsgAddress}
    (h : ∀ it ∈ smsgAddresses, AddressText it.sAddress)
    (s : SecMsgOptions × List SecMsgAddress) :
    (iniLines (iniText smsgOptions smsgAddresses).length
        (iniText smsgOptions smsgAddresses)).foldl readIniLine s =
      (smsgOptions, s.2 ++ smsgAddresses) := by
  have hbool : ∀ b, (boolText b == ascii "true") = b := by decide
  obtain ⟨hra, hrk, hak⟩ := names_ne
  have hrecv := flagValues_keys smsgAddresses hrk
  have hanon := flagValues_keys smsgAddresses hak
  have hall := keyValues_keys h
  rw [iniLines_iniText smsgOptions h, foldl_readIniLine, filterMap_writtenLines smsgOptions h]
  simp only [flagValues, keyValues] at hrecv hanon hall
  simp only [readPairs, flagValues, keyValues, List.filterMap_cons, if_true, if_neg hra,
    if_neg hra.symm, if_neg hrk, if_neg hak, hrecv, hanon, hall, hbool]
  rfl

/-! Disabling and enabling. -/

/-- What `smsg.ini` holds is what is in memory: its last values for the options, if any, and its
addresses, or those of the wallet when it lists none. -/
structure SettingsOnDisk (book : AddressBook) (s : SmsgSettings) : Prop where
  recv : ∀ b ∈ (flagValues (ascii "newAddressRecv") s.pairs).getLast?,
    b = s.smsgOptions.fNewAddressRecv
  anon : ∀ b ∈ (flagValues (ascii "newAddressAnon") s.pairs).getLast?,
    b = s.smsgOptions.fNewAddressAnon
  addresses : s.smsgAddresses =
    if keyValues s.pairs = [] then addWalletAddresses book [] else keyValues s.pairs

/-- While messaging is enabled the pairs of `smsg.ini` are read, none without a file. -/
theorem readIni_eq {s : SmsgSettings} (hon : s.fSecMsgEnabled = true) :
    s.readIni.2 = { s with
      smsgOptions := (readPairs (s.smsgOptions, s.smsgAddresses) s.pairs).1
      smsgAddresses := (readPairs (s.smsgOptions, s.smsgAddresses) s.pairs).2 } := by
  obtain ⟨fSecMsgEnabled, smsgOptions, smsgAddresses, ini⟩ := s
  obtain rfl : fSecMsgEnabled = true := hon
  cases ini with
  | none => simp [SmsgSettings.readIni, SmsgSettings.pairs, readPairs_nil]
  | some text => simp [SmsgSettings.readIni, SmsgSettings.pairs, foldl_readIniLine]

/-- What is loaded into an empty list: what the pairs of `smsg.ini` say, and the addresses of the
wallet when they list none. -/
theorem load_eq (book : AddressBook) {s : SmsgSettings} (hon : s.fSecMsgEnabled = true)
    (hempty : s.smsgAddresses = []) :
    s.load book = { s with
      smsgOptions := (readPairs (s.smsgOptions, []) s.pairs).1
      smsgAddresses := if keyValues s.pairs = [] then addWalletAddresses book []
        else keyValues s.pairs } := by
  have haddresses : (readPairs (s.smsgOptions, []) s.pairs).2 = keyValues s.pairs :=
    List.nil_append _
  rw [SmsgSettings.load, readIni_eq hon, hempty, haddresses]
  by_cases hkeys : keyValues s.pairs = []
  · simp [hkeys]
  · have hlen := List.length_pos_iff.mpr hkeys
    rw [if_neg (by dsimp only; omega), if_neg hkeys]

/-- The last value of a list that an option takes leaves the option when it is that value. -/
theorem getLastD_eq_iff (values : List Bool) (b : Bool) :
    values.getLastD b = b ↔ ∀ b' ∈ values.getLast?, b' = b := by
  rw [List.getLastD_eq_getLast?]
  cases values.getLast? with
  | none => simp
  | some b' => simp

/-- Disabling writes nothing, so that enabling loads the file as it was. -/
theorem enable_disable (book : AddressBook) (fStarted : Bool) {s : SmsgSettings}
    (hon : s.fSecMsgEnabled = true) :
    (s.disable.2.enable book fStarted).2 =
      { (SmsgSettings.load book { s with smsgAddresses := [] }) with
        fSecMsgEnabled := fStarted } := by
  obtain ⟨fSecMsgEnabled, smsgOptions, smsgAddresses, ini⟩ := s
  obtain rfl : fSecMsgEnabled = true := hon
  rfl

/-- What is read after the settings were written, whatever stood in memory. -/
theorem readIni_writeIni {s : SmsgSettings} (hon : s.fSecMsgEnabled = true)
    (htext : ∀ it ∈ s.smsgAddresses, AddressText it.sAddress) (smsgOptions : SecMsgOptions) :
    SmsgSettings.readIni { s.writeIni.2 with smsgOptions, smsgAddresses := [] } = (0, s.writeIni.2) := by
  obtain ⟨fSecMsgEnabled, o, a, ini⟩ := s
  obtain rfl : fSecMsgEnabled = true := hon
  have hread := readIni_iniText o htext (smsgOptions, [])
  simp only [SmsgSettings.readIni, SmsgSettings.writeIni, Bool.not_true, Bool.false_eq_true, if_false,
    hread, List.nil_append]

/-- Enabling loads what was written to the file. -/
theorem load_iniText (book : AddressBook) {s : SmsgSettings} (hon : s.fSecMsgEnabled = true)
    (hempty : s.smsgAddresses = []) {o : SecMsgOptions} {a : List SecMsgAddress}
    (htext : ∀ it ∈ a, AddressText it.sAddress) (hini : s.ini = some (iniText o a)) :
    (s.load book).smsgOptions = o ∧
      (s.load book).smsgAddresses = if a = [] then addWalletAddresses book [] else a := by
  obtain ⟨fSecMsgEnabled, smsgOptions, smsgAddresses, ini⟩ := s
  obtain rfl : fSecMsgEnabled = true := hon
  obtain rfl : smsgAddresses = [] := hempty
  obtain rfl : ini = some (iniText o a) := hini
  have hread := readIni_iniText o htext (smsgOptions, [])
  simp only [SmsgSettings.load, SmsgSettings.readIni, Bool.not_true, Bool.false_eq_true, if_false,
    hread, List.nil_append]
  by_cases ha : a = []
  · simp [ha]
  · have hlen := List.length_pos_iff.mpr ha
    simp only [if_neg (show ¬ a.length < 1 by omega), if_neg ha, and_self]

/-- A shutdown writes the settings, and the next start reads them. -/
theorem start_shutdown (book : AddressBook) (fStarted : Bool) {s : SmsgSettings}
    (hon : s.fSecMsgEnabled = true) (hne : s.smsgAddresses ≠ [])
    (htext : ∀ it ∈ s.smsgAddresses, AddressText it.sAddress) :
    (SmsgSettings.start book fStarted
        { fSecMsgEnabled := false, ini := s.shutdown.2.ini }).2.smsgOptions = s.smsgOptions ∧
      (SmsgSettings.start book fStarted
        { fSecMsgEnabled := false, ini := s.shutdown.2.ini }).2.smsgAddresses =
        s.smsgAddresses := by
  have hini : s.shutdown.2.ini = some (iniText s.smsgOptions s.smsgAddresses) := by
    simp [SmsgSettings.shutdown, SmsgSettings.writeIni, hon]
  have hload := load_iniText book
    (s := { fSecMsgEnabled := true, ini := s.shutdown.2.ini }) rfl rfl htext hini
  rwa [if_neg hne] at hload

/-- Loading gives the settings in memory when the file holds them. -/
theorem load_keeps_iff (book : AddressBook) {s : SmsgSettings} (hon : s.fSecMsgEnabled = true) :
    ((SmsgSettings.load book { s with smsgAddresses := [] }).smsgOptions = s.smsgOptions ∧
      (SmsgSettings.load book { s with smsgAddresses := [] }).smsgAddresses = s.smsgAddresses) ↔
      SettingsOnDisk book s := by
  rw [load_eq book (s := { s with smsgAddresses := [] }) hon rfl]
  have hpairs : SmsgSettings.pairs { s with smsgAddresses := [] } = s.pairs := rfl
  have hoptions : (readPairs (s.smsgOptions, []) s.pairs).1 = s.smsgOptions ↔
      (∀ b ∈ (flagValues (ascii "newAddressRecv") s.pairs).getLast?,
        b = s.smsgOptions.fNewAddressRecv) ∧
      ∀ b ∈ (flagValues (ascii "newAddressAnon") s.pairs).getLast?,
        b = s.smsgOptions.fNewAddressAnon := by
    rw [← getLastD_eq_iff, ← getLastD_eq_iff]
    constructor
    · intro h
      exact ⟨congrArg SecMsgOptions.fNewAddressRecv h, congrArg SecMsgOptions.fNewAddressAnon h⟩
    · rintro ⟨hrecv, hanon⟩
      simp only [readPairs, hrecv, hanon]
  simp only [hpairs, hoptions]
  constructor
  · rintro ⟨⟨hrecv, hanon⟩, haddresses⟩
    exact ⟨hrecv, hanon, haddresses.symm⟩
  · rintro ⟨hrecv, hanon, haddresses⟩
    exact ⟨⟨hrecv, hanon⟩, haddresses.symm⟩

/-- Disabling and enabling keeps the settings exactly when they were on disk before: for a file that
was written, when they are those that were written. And what is written is read back, while messaging
is enabled, for all options and addresses; so it is at the start after a shutdown. -/
theorem disable_enable_keeps_iff (book : AddressBook) (fStarted : Bool) (s : SmsgSettings)
    (hon : s.fSecMsgEnabled = true) :
    (((s.disable.2.enable book fStarted).2.smsgOptions = s.smsgOptions ∧
      (s.disable.2.enable book fStarted).2.smsgAddresses = s.smsgAddresses) ↔
        SettingsOnDisk book s) ∧
    (∀ o a, (∀ it ∈ a, AddressText it.sAddress) → s.ini = some (iniText o a) →
      (((s.disable.2.enable book fStarted).2.smsgOptions = s.smsgOptions ∧
        (s.disable.2.enable book fStarted).2.smsgAddresses = s.smsgAddresses) ↔
          s.smsgOptions = o ∧
            s.smsgAddresses = if a = [] then addWalletAddresses book [] else a)) ∧
    ((∀ it ∈ s.smsgAddresses, AddressText it.sAddress) →
      (∀ smsgOptions, SmsgSettings.readIni { s.writeIni.2 with smsgOptions, smsgAddresses := [] } =
        (0, s.writeIni.2)) ∧
      (s.writeIni.2.smsgOptions = s.smsgOptions ∧ s.writeIni.2.smsgAddresses = s.smsgAddresses) ∧
      (s.smsgAddresses ≠ [] →
        (SmsgSettings.start book fStarted
            { fSecMsgEnabled := false, ini := s.shutdown.2.ini }).2.smsgOptions = s.smsgOptions ∧
          (SmsgSettings.start book fStarted
            { fSecMsgEnabled := false, ini := s.shutdown.2.ini }).2.smsgAddresses =
            s.smsgAddresses)) := by
  rw [enable_disable book fStarted hon]
  refine ⟨load_keeps_iff book hon, fun o a htext hini => ?_, fun htext => ⟨?_, ?_, ?_⟩⟩
  · obtain ⟨ho, ha⟩ := load_iniText book (s := { s with smsgAddresses := [] }) hon rfl htext hini
    rw [ho, ha]
    exact and_congr eq_comm eq_comm
  · exact readIni_writeIni hon htext
  · simp [SmsgSettings.writeIni, hon]
  · exact fun hne => start_shutdown book fStarted hon hne htext

namespace Sample

/-- A wallet without addresses. -/
def emptyBook : AddressBook where
  hash := fun _ => [0, 0, 0, 0]
  fTestNet := false
  isMine _ := false
  mapAddressBook := []

def savedSettings : SmsgSettings where
  fSecMsgEnabled := true
  smsgAddresses := [⟨ascii "TriangesKey", true, true⟩]
  ini := some (iniText {} [⟨ascii "TriangesKey", true, true⟩])

def changedSettings : SmsgSettings :=
  { savedSettings with smsgAddresses := [⟨ascii "TriangesKey", false, true⟩] }

end Sample

theorem disable_enable_keeps_saved :
    (Sample.savedSettings.disable.2.enable Sample.emptyBook true).2.smsgAddresses =
      Sample.savedSettings.smsgAddresses :=
  ((disable_enable_keeps_iff Sample.emptyBook true Sample.savedSettings rfl).1.mpr
    ⟨by decide +kernel, by decide +kernel, by decide +kernel⟩).2

/-- The change is lost: the address receives again. -/
theorem disable_enable_loses_change :
    (∀ it ∈ Sample.changedSettings.smsgAddresses,
      it.sAddress.length ≤ 63 ∧ ∀ c ∈ it.sAddress, c ∈ pszBase58) ∧
    (Sample.changedSettings.disable.2.enable Sample.emptyBook true).2.smsgAddresses ≠
      Sample.changedSettings.smsgAddresses := by
  decide +kernel

end Triangles
