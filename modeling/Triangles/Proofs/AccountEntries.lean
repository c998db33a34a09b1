import Mathlib.Data.List.Perm.Basic
import Triangles.Lib.Assoc
import Triangles.Model.Accounts
import Triangles.Proofs.WalletRecord

/-! The accounting entries of an account as the cursor finds them in the wallet file. -/

namespace Triangles

open Codec KeyOrder Outcome
open Std (ExtTreeMap)

/-! Reading one record. -/

theorem reader_bind_ok {α β : Type} {r : Reader StreamError α} {f : α → Reader StreamError β}
    {s t : List UInt8} {b : β} :
    (r >>= f) s = .ok (b, t) ↔ ∃ a s', r s = .ok (a, s') ∧ f a s' = .ok (b, t) := by
  change ((r s) >>= fun x => f x.1 x.2) = _ ↔ _
  rw [bind_ok]
  exact ⟨fun ⟨⟨a, s'⟩, h⟩ => ⟨a, s', h⟩, fun ⟨a, s', h⟩ => ⟨(a, s'), h⟩⟩

theorem readSigned_any (nVersion : Int) : ∃ m, Reads (readSigned 4) (signedBytes 4 nVersion) m := by
  have hnonneg : 0 ≤ nVersion % 256 ^ 4 := Int.emod_nonneg _ (by decide)
  have hlt : nVersion % 256 ^ 4 < 256 ^ 4 := Int.emod_lt_of_pos _ (by decide)
  have hword : (nVersion % 256 ^ 4).toNat < 256 ^ 4 := by omega
  exact ⟨_, (readLE_reads hword).map fun k : Nat => (k : Int).bmod (256 ^ 4)⟩

/-- The amount is read as it was written, whatever the rest of the entry is. -/
theorem CAccountingEntry.credit_read {entry a : CAccountingEntry} {nVersion : Int}
    {account rest : List UInt8} (h : InSigned 8 entry.nCreditDebit)
    (hread : unserialize { strAccount := account } (entry.serialize nVersion).1 = .ok (a, rest)) :
    a.strAccount = account ∧ a.nCreditDebit = entry.nCreditDebit := by
  obtain ⟨m, hversion⟩ := readSigned_any nVersion
  rw [unserialize, serialize] at hread
  change (readSigned 4 >>= _) (signedBytes 4 nVersion ++ _) = _ at hread
  rw [hversion.next] at hread
  change (readSigned 8 >>= _) (signedBytes 8 entry.nCreditDebit ++ _) = _ at hread
  rw [(readSigned_reads h).next, reader_bind_ok] at hread
  obtain ⟨nTime, s, -, hread⟩ := hread
  rw [reader_bind_ok] at hread
  obtain ⟨strOtherAccount, s, -, hread⟩ := hread
  rw [reader_bind_ok] at hread
  obtain ⟨strComment, s, -, hread⟩ := hread
  rw [reader_bind_ok] at hread
  obtain ⟨extra, s, -, hread⟩ := hread
  obtain ⟨rfl, -⟩ := Prod.mk.inj (pure_ok.mp hread)
  exact ⟨rfl, rfl⟩

theorem string_large {str : List UInt8} (h : MAX_SIZE < str.length) (hlt : str.length < 2 ^ 64)
    (rest : List UInt8) : unserializeString (serializeBytes str ++ rest) = .error .sizeTooLarge := by
  rw [serializeBytes, List.append_assoc]
  change (readCompactSize _ >>= _) = _
  rw [readCompactSize_large h hlt]
  rfl

namespace AccountWallet

variable {db : WalletDb} {entries : List CAccountingEntry} {strAccount : List UInt8}

def keyOf (e : CAccountingEntry) : List UInt8 := entryKey e.strAccount e.nEntryNo

/-- The file has these entries under keys of their own, and besides them only records of other
types. -/
structure Holds (db : WalletDb) (entries : List CAccountingEntry) : Prop where
  keys_nodup : (entries.map keyOf).Nodup
  ranged : ∀ e ∈ entries, e.strAccount.length < 2 ^ 64 ∧ InSigned 8 e.nCreditDebit
  written : ∀ e ∈ entries, ∃ nVersion, db[keyOf e]? = some (e.serialize nVersion).1
  others : ∀ k ∈ db, (∃ e ∈ entries, k = keyOf e) ∨ ∃ strType rest, strType ≠ ascii "acentry" ∧
    strType.length ≤ MAX_SIZE ∧ k = serializeBytes strType ++ rest

def recordOf (db : WalletDb) (e : CAccountingEntry) : List UInt8 × List UInt8 :=
  (keyOf e, (db[keyOf e]?).getD [])

def sought (strAccount : List UInt8) (e : CAccountingEntry) : Bool :=
  strAccount == ascii "*" || e.strAccount == strAccount

/-- The account of the entry and the rest of it can be read. -/
def Readable (db : WalletDb) (e : CAccountingEntry) : Prop :=
  e.strAccount.length ≤ MAX_SIZE ∧ ∃ a rest,
    CAccountingEntry.unserialize { strAccount := e.strAccount } (recordOf db e).2 = .ok (a, rest)

def creditOf (e : CAccountingEntry) : List UInt8 × Int := (e.strAccount, e.nCreditDebit)

theorem acentry_reads : Reads unserializeString (serializeBytes (ascii "acentry")) (ascii "acentry") :=
  string_reads (by decide)

theorem wordBytes_reads_end (nEntryNo : UInt64) :
    readLE 8 (wordBytes 8 nEntryNo.toNat) = .ok (nEntryNo.toNat, []) := by
  have hlt : nEntryNo.toNat < 256 ^ 8 := nEntryNo.toNat_lt
  have hread := readLE_reads hlt []
  rw [List.append_nil] at hread
  exact hread

theorem readEntries_cons {fAllAccounts : Bool} {e : CAccountingEntry} {value : List UInt8}
    {records : List (List UInt8 × List UInt8)} (h : e.strAccount.length ≤ MAX_SIZE) :
    readEntries fAllAccounts strAccount ((keyOf e, value) :: records) =
      if !fAllAccounts && e.strAccount != strAccount then .ok []
      else CAccountingEntry.unserialize { strAccount := e.strAccount } value >>= fun acentry =>
        readEntries fAllAccounts strAccount records >>= fun l =>
          .ok ({ acentry.1 with nEntryNo := e.nEntryNo } :: l) := by
  rw [readEntries, keyOf, entryKey, acentry_reads]
  change (if ascii "acentry" ≠ ascii "acentry" then .ok []
    else unserializeString (serializeBytes e.strAccount ++ wordBytes 8 e.nEntryNo.toNat) >>= _) = _
  rw [if_neg (not_not.mpr rfl), string_reads h]
  change (if (!fAllAccounts && e.strAccount != strAccount) = true then .ok []
    else CAccountingEntry.unserialize { strAccount := e.strAccount } value >>= _) = _
  split_ifs
  · rfl
  · refine bind_congr fun x => ?_
    rw [wordBytes_reads_end]
    change (readEntries fAllAccounts strAccount records >>= fun l =>
      .ok ({ x.1 with nEntryNo := UInt64.ofNat e.nEntryNo.toNat } :: l)) = _
    rw [UInt64.ofNat_toNat]

/-- The loop does not get past an account whose name is too large. -/
theorem readEntries_large {fAllAccounts : Bool} {e : CAccountingEntry} {value : List UInt8}
    {records : List (List UInt8 × List UInt8)} (h : MAX_SIZE < e.strAccount.length)
    (hlt : e.strAccount.length < 2 ^ 64) :
    readEntries fAllAccounts strAccount ((keyOf e, value) :: records) = .error .sizeTooLarge := by
  rw [readEntries, keyOf, entryKey, acentry_reads]
  change (if ascii "acentry" ≠ ascii "acentry" then .ok []
    else unserializeString (serializeBytes e.strAccount ++ wordBytes 8 e.nEntryNo.toNat) >>= _) = _
  rw [if_neg (not_not.mpr rfl), string_large h hlt]
  rfl

theorem readEntries_other {fAllAccounts : Bool} {strType rest value : List UInt8}
    {records : List (List UInt8 × List UInt8)} (h : strType ≠ ascii "acentry")
    (hlen : strType.length ≤ MAX_SIZE) :
    readEntries fAllAccounts strAccount ((serializeBytes strType ++ rest, value) :: records) = .ok [] := by
  rw [readEntries, string_reads hlen]
  exact if_pos h

/-! Where the records are. -/

def prefixOf (strAccount : List UInt8) : List UInt8 :=
  serializeBytes (ascii "acentry") ++
    if strAccount == ascii "*" then [] else serializeBytes strAccount

/-- Where the cursor starts. -/
def startOf (strAccount : List UInt8) : List UInt8 :=
  entryKey (if strAccount == ascii "*" then [] else strAccount) 0

/-- The cursor starts at the least key with the prefix that is as long as those of the entries. -/
theorem startOf_eq (strAccount : List UInt8) :
    ∃ n, startOf strAccount = prefixOf strAccount ++ List.replicate n 0 ∧
      ∀ e, sought strAccount e = true → ∃ x, keyOf e = prefixOf strAccount ++ x ∧ n ≤ x.length := by
  unfold startOf prefixOf sought keyOf entryKey
  cases strAccount == ascii "*" with
  | true =>
    refine ⟨9, rfl, fun e _ => ⟨serializeBytes e.strAccount ++ wordBytes 8 e.nEntryNo.toNat, ?_, ?_⟩⟩
    · rw [if_pos rfl, List.append_nil]
    · have hpos : 1 ≤ getSizeOfCompactSize e.strAccount.length := by
        unfold getSizeOfCompactSize
        split_ifs <;> decide
      rw [List.length_append, serializeBytes_length, wordBytes_length]
      omega
  | false =>
    refine ⟨8, ?_, fun e he => ⟨wordBytes 8 e.nEntryNo.toNat, ?_, ?_⟩⟩
    · rw [if_neg Bool.false_ne_true, if_neg Bool.false_ne_true, List.append_assoc]
      rfl
    · rw [Bool.false_or, beq_iff_eq] at he
      rw [he, if_neg Bool.false_ne_true, List.append_assoc]
    · rw [wordBytes_length]

/-- The keys of other types do not have the prefix. -/
theorem other_typed {strType rest x : List UInt8} (h : strType ≠ ascii "acentry")
    (hlen : strType.length ≤ MAX_SIZE) : serializeBytes strType ++ rest ≠ prefixOf strAccount ++ x := by
  intro heq
  rw [prefixOf, List.append_assoc] at heq
  exact h ((string_reads hlen).unique acentry_reads heq).1

/-- An entry whose key has the prefix is sought. -/
theorem sought_of_prefix {e : CAccountingEntry} {x : List UInt8}
    (hread : strAccount = ascii "*" ∨
      strAccount.length ≤ MAX_SIZE ∧ e.strAccount.length ≤ MAX_SIZE)
    (heq : keyOf e = prefixOf strAccount ++ x) : sought strAccount e = true := by
  unfold sought
  cases hall : strAccount == ascii "*" with
  | true => rfl
  | false =>
    obtain hstar | ⟨hacc, he⟩ := hread
    · rw [hstar, beq_self_eq_true] at hall
      cases hall
    · rw [keyOf, entryKey, prefixOf, hall, if_neg Bool.false_ne_true, List.append_assoc] at heq
      obtain ⟨hsame, -⟩ :=
        (string_reads he).unique (string_reads hacc) (List.append_cancel_left heq)
      rw [Bool.false_or, beq_iff_eq]
      exact hsame

theorem unskipped {e : CAccountingEntry} (h : sought strAccount e = true) :
    (!(strAccount == ascii "*") && e.strAccount != strAccount) = false := by
  rw [sought] at h
  revert h
  rw [bne]
  cases strAccount == ascii "*" <;> cases e.strAccount == strAccount <;> decide

def soughtRecord (entries : List CAccountingEntry) (strAccount : List UInt8)
    (r : List UInt8 × List UInt8) : Bool := entries.any fun e => r.1 == keyOf e && sought strAccount e

theorem soughtRecord_iff {r : List UInt8 × List UInt8} : soughtRecord entries strAccount r = true ↔
    ∃ e ∈ entries, r.1 = keyOf e ∧ sought strAccount e = true := by
  simp only [soughtRecord, List.any_eq_true, Bool.and_eq_true, beq_iff_eq]

/-! Reading the records of some entries. -/


theorem readEntries_succeeds {fAllAccounts : Bool} {es : List CAccountingEntry}
    {rest : List (List UInt8 × List UInt8)} (hes : ∀ e ∈ es,
      (!fAllAccounts && e.strAccount != strAccount) = false) (hread : ∀ e ∈ es, Readable db e)
    (hstop : readEntries fAllAccounts strAccount rest = .ok []) :
    ∃ l, readEntries fAllAccounts strAccount (es.map (recordOf db) ++ rest) = .ok l := by
  induction es with
  | nil => exact ⟨[], hstop⟩
  | cons e es ih =>
    obtain ⟨l, hl⟩ := ih (fun e' he' => hes e' (List.mem_cons_of_mem e he'))
      fun e' he' => hread e' (List.mem_cons_of_mem e he')
    obtain ⟨hlen, a, s, ha⟩ := hread e List.mem_cons_self
    rw [List.map_cons, List.cons_append, recordOf, readEntries_cons hlen,
      if_neg (by rw [hes e List.mem_cons_self]; exact Bool.false_ne_true), hl]
    rw [recordOf] at ha
    rw [ha]
    exact ⟨_, rfl⟩

variable (hdb : Holds db entries)
include hdb

theorem Holds.value {e : CAccountingEntry} (he : e ∈ entries) :
    ∃ nVersion, (recordOf db e).2 = (e.serialize nVersion).1 := by
  obtain ⟨nVersion, hvalue⟩ := hdb.written e he
  exact ⟨nVersion, by rw [recordOf, hvalue, Option.getD_some]⟩

/-- Entries that the loop has read are those of the records, and can be read. -/
theorem readEntries_ok {fAllAccounts : Bool} {es l : List CAccountingEntry}
    {rest : List (List UInt8 × List UInt8)} (hes : ∀ e ∈ es, e ∈ entries ∧
      (!fAllAccounts && e.strAccount != strAccount) = false)
    (hstop : readEntries fAllAccounts strAccount rest = .ok [])
    (h : readEntries fAllAccounts strAccount (es.map (recordOf db) ++ rest) = .ok l) :
    l.map creditOf = es.map creditOf ∧ ∀ e ∈ es, Readable db e := by
  induction es generalizing l with
  | nil =>
    rw [List.map_nil, List.nil_append, hstop] at h
    obtain rfl := Except.ok.inj h
    exact ⟨rfl, fun e he => by cases he⟩
  | cons e es ih =>
    obtain ⟨he, hsel⟩ := hes e List.mem_cons_self
    rw [List.map_cons, List.cons_append] at h
    have hlen : e.strAccount.length ≤ MAX_SIZE := by
      by_contra hlarge
      rw [recordOf, readEntries_large (not_le.mp hlarge) (hdb.ranged e he).1] at h
      cases h
    rw [recordOf, readEntries_cons hlen, if_neg (by rw [hsel]; exact Bool.false_ne_true), bind_ok] at h
    obtain ⟨⟨a, s⟩, hread, h⟩ := h
    rw [bind_ok] at h
    obtain ⟨m, hm, h⟩ := h
    obtain rfl := Except.ok.inj h
    obtain ⟨hsame, hreadable⟩ := ih (fun e' he' => hes e' (List.mem_cons_of_mem e he')) hm
    obtain ⟨nVersion, hvalue⟩ := hdb.value he
    rw [recordOf] at hvalue
    dsimp only at hvalue
    have hcredit := CAccountingEntry.credit_read (hdb.ranged e he).2 (hvalue ▸ hread)
    constructor
    · rw [List.map_cons, List.map_cons, hsame]
      exact congrArg (· :: _) (Prod.ext hcredit.1 hcredit.2)
    · intro e' he'
      rcases List.mem_cons.mp he' with rfl | he'
      · exact ⟨hlen, a, s, hread⟩
      · exact hreadable e' he'

/-! The cursor. -/

theorem recordOf_mem {e : CAccountingEntry} (he : e ∈ entries) : recordOf db e ∈ db.toList := by
  obtain ⟨nVersion, hvalue⟩ := hdb.written e he
  rw [recordOf, hvalue, ExtTreeMap.mem_toList_iff_getElem?_eq_some]
  exact hvalue

/-- The records that are sought are those of the entries that are sought. -/
theorem filter_toList (strAccount : List UInt8) :
    (db.toList.filter (soughtRecord entries strAccount)).Perm
      ((entries.filter (sought strAccount)).map (recordOf db)) := by
  have hkeys : ((entries.filter (sought strAccount)).map (recordOf db)).Nodup := by
    refine List.Nodup.of_map Prod.fst ?_
    rw [List.map_map]
    exact hdb.keys_nodup.sublist (List.filter_sublist.map keyOf)
  have hnodup : db.toList.Nodup := List.Nodup.of_map Prod.fst (Slots.toList_keys_nodup db)
  refine (List.perm_ext_iff_of_nodup (hnodup.filter _) hkeys).mpr fun r => ?_
  rw [List.mem_filter, soughtRecord_iff, List.mem_map]
  constructor
  · rintro ⟨hr, e, he, hkey, hsought⟩
    refine ⟨e, List.mem_filter.mpr ⟨he, hsought⟩, Prod.ext hkey.symm ?_⟩
    rw [recordOf, ← hkey, ExtTreeMap.mem_toList_iff_getElem?_eq_some.mp hr, Option.getD_some]
  · rintro ⟨e, he, rfl⟩
    obtain ⟨he, hsought⟩ := List.mem_filter.mp he
    exact ⟨recordOf_mem hdb he, e, he, rfl, hsought⟩

/-- From its start on, the cursor meets the records that are sought and then one that is not. -/
theorem cursor_at (hread : strAccount = ascii "*" ∨ ∀ e ∈ entries, e.strAccount.length ≤ MAX_SIZE) :
    ∃ rest, (db.toList.dropWhile fun r => compare r.1 (startOf strAccount) == .lt) =
        db.toList.filter (soughtRecord entries strAccount) ++ rest ∧
      ∀ r ∈ rest.head?, soughtRecord entries strAccount r = false := by
  obtain ⟨n, hstart, hkeys⟩ := startOf_eq strAccount
  refine dropWhile_first (fun r _ hr => ?_) ?_ ?_
  · obtain ⟨e, -, hkey, hsought⟩ := soughtRecord_iff.mp hr
    obtain ⟨x, hx, hlen⟩ := hkeys e hsought
    rw [beq_eq_false_iff_ne, hkey, hx, hstart, compare_append_left]
    exact not_lt_replicate (fun c hc => UInt8.not_lt_zero (Std.compare_eq_lt.mp hc)) hlen
  · refine (ExtTreeMap.ordered_keys_toList (t := db)).imp fun {a b} hab hb => ?_
    rw [beq_iff_eq] at hb ⊢
    exact Std.TransCmp.lt_trans hab hb
  · refine (ExtTreeMap.ordered_keys_toList (t := db)).imp_of_mem fun {a b} ha _ hab hbelow hb => ?_
    obtain ⟨e, he, hkey, hsought⟩ := soughtRecord_iff.mp hb
    obtain ⟨x, hx, -⟩ := hkeys e hsought
    rw [beq_eq_false_iff_ne, hstart] at hbelow
    rw [hkey, hx] at hab
    obtain ⟨y, hy⟩ := prefix_of_between hbelow hab
    have hmem : a.1 ∈ db := by
      rw [ExtTreeMap.mem_iff_isSome_getElem?, ExtTreeMap.mem_toList_iff_getElem?_eq_some.mp ha]
      rfl
    rcases hdb.others a.1 hmem with ⟨e', he', hkey'⟩ | ⟨strType, rest, htype, hlen, hother⟩
    · refine soughtRecord_iff.mpr ⟨e', he', hkey', sought_of_prefix ?_ (hkey'.symm.trans hy)⟩
      rw [sought, Bool.or_eq_true, beq_iff_eq, beq_iff_eq] at hsought
      rcases hsought with hstar | hsame
      · exact .inl hstar
      · exact hread.imp_right fun hread => ⟨hsame ▸ hread e he, hread e' he'⟩
    · exact absurd (hother.symm.trans hy) (other_typed htype hlen)

/-- A record that is not sought ends the loop. -/
theorem readEntries_stops {rest : List (List UInt8 × List UInt8)}
    (hread : strAccount = ascii "*" ∨ ∀ e ∈ entries, e.strAccount.length ≤ MAX_SIZE)
    (hmem : ∀ r ∈ rest, r ∈ db.toList)
    (hhead : ∀ r ∈ rest.head?, soughtRecord entries strAccount r = false) :
    readEntries (strAccount == ascii "*") strAccount rest = .ok [] := by
  cases rest with
  | nil => rfl
  | cons r rest =>
    obtain ⟨k, value⟩ := r
    have hnot : soughtRecord entries strAccount (k, value) = false := hhead (k, value) rfl
    have hvalue := ExtTreeMap.mem_toList_iff_getElem?_eq_some.mp (hmem (k, value) List.mem_cons_self)
    have hk : k ∈ db := by
      rw [ExtTreeMap.mem_iff_isSome_getElem?, hvalue]
      rfl
    rcases hdb.others k hk with ⟨e, he, rfl⟩ | ⟨strType, s, htype, hlen, rfl⟩
    · have hsought : sought strAccount e = false := by
        rw [← Bool.not_eq_true] at hnot ⊢
        exact fun hsought => hnot (soughtRecord_iff.mpr ⟨e, he, rfl, hsought⟩)
      rw [sought, Bool.or_eq_false_iff] at hsought
      obtain ⟨hall, hother⟩ := hsought
      rcases hread with rfl | hread
      · rw [beq_self_eq_true] at hall
        cases hall
      · rw [readEntries_cons (hread e he), hall, bne, hother]
        rfl
    · exact readEntries_other htype hlen

/-- What the loop reads: the records of the entries that are sought, in some order, and then one
that ends it. -/
theorem cursor_reads
    (hread : strAccount = ascii "*" ∨ ∀ e ∈ entries, e.strAccount.length ≤ MAX_SIZE) :
    ∃ (es : List CAccountingEntry) (rest : List (List UInt8 × List UInt8)),
      es.Perm (entries.filter (sought strAccount)) ∧
      (db.toList.dropWhile fun r => compare r.1 (startOf strAccount) == .lt) =
        es.map (recordOf db) ++ rest ∧
      readEntries (strAccount == ascii "*") strAccount rest = .ok [] := by
  obtain ⟨rest, hrest, hhead⟩ := cursor_at hdb hread
  have hperm := filter_toList hdb strAccount
  obtain ⟨es, hes, hperm⟩ : ∃ es : List CAccountingEntry, db.toList.filter (soughtRecord entries strAccount) =
      es.map (recordOf db) ∧ es.Perm (entries.filter (sought strAccount)) := by
    have hcomp := congrFun (congrFun (List.eq_map_comp_perm (recordOf db))
      (db.toList.filter (soughtRecord entries strAccount))) (entries.filter (sought strAccount))
    exact hcomp.mpr hperm
  refine ⟨es, rest, hperm, by rw [hrest, hes], readEntries_stops hdb hread (fun r hr => ?_) hhead⟩
  exact (List.dropWhile_sublist _).subset (hrest ▸ List.mem_append_right _ hr)

/-- All the entries are listed, and then they can be read. -/
theorem listed_all {l : List CAccountingEntry}
    (h : listAccountCreditDebit db (ascii "*") = .ok l) :
    (l.map creditOf).Perm (entries.map creditOf) ∧ ∀ e ∈ entries, Readable db e := by
  obtain ⟨es, rest, hperm, hdrop, hstop⟩ := cursor_reads hdb (.inl rfl)
  have hall : entries.filter (sought (ascii "*")) = entries :=
    List.filter_eq_self.mpr fun e _ => rfl
  rw [hall] at hperm
  have hreads : readEntries true (ascii "*") (es.map (recordOf db) ++ rest) = .ok l := by
    rw [← hdrop]
    cases hr : readEntries true (ascii "*")
        (db.toList.dropWhile fun r => compare r.1 (startOf (ascii "*")) == .lt) with
    | error e =>
      have herror : listAccountCreditDebit db (ascii "*") = .error (streamReject e) :=
        congrArg (Except.mapError streamReject) hr
      rw [herror] at h
      cases h
    | ok m =>
      have hok : listAccountCreditDebit db (ascii "*") = .ok m :=
        congrArg (Except.mapError streamReject) hr
      rw [hok] at h
      rw [Except.ok.inj h]
  obtain ⟨hsame, hreadable⟩ := readEntries_ok hdb
    (fun e he => ⟨hperm.subset he, rfl⟩) hstop hreads
  exact ⟨hsame ▸ hperm.map creditOf, fun e he => hreadable e (hperm.symm.subset he)⟩

/-- The entries of an account are listed when all of them can be read. -/
theorem listed_account (strAccount : List UInt8) (hread : ∀ e ∈ entries, Readable db e) :
    ∃ l, listAccountCreditDebit db strAccount = .ok l ∧
      (l.map creditOf).Perm ((entries.filter (sought strAccount)).map creditOf) := by
  obtain ⟨es, rest, hperm, hdrop, hstop⟩ := cursor_reads hdb
    (.inr fun e he => (hread e he).1 : strAccount = ascii "*" ∨ _)
  have hsought : ∀ e ∈ es, e ∈ entries ∧
      (!(strAccount == ascii "*") && e.strAccount != strAccount) = false := by
    intro e he
    obtain ⟨hmem, hsought⟩ := List.mem_filter.mp (hperm.subset he)
    exact ⟨hmem, unskipped hsought⟩
  obtain ⟨l, hl⟩ := readEntries_succeeds (fun e he => (hsought e he).2)
    (fun e he => hread e (hsought e he).1) hstop
  refine ⟨l, ?_, ?_⟩
  · rw [← hdrop] at hl
    exact congrArg (Except.mapError streamReject) hl
  · rw [(readEntries_ok hdb hsought hstop hl).1]
    exact hperm.map creditOf

end AccountWallet

end Triangles
