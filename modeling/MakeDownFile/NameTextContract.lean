import MakeDownFile.NameText

/-! # What the extraction of a name text leaves

A text that is converted to nothing is not stored at all, and a buffer of one byte is not
cleared for a text that does not fit. -/
namespace NameTextContract

open CallerMemory
open NameText

def Converted (s : Asn1String) : Prop := s.type = vAsn1BmpString ∨ s.type = vAsn1Utf8String

instance (s : Asn1String) : Decidable (Converted s) := inferInstanceAs (Decidable (_ ∨ _))

/-- The text that the data stands for, unless a converter refuses it. -/
def gbkText (h : Helpers) (s : Asn1String) : Option (List UInt8) :=
  if s.data = [] then some []
  else if s.type = vAsn1BmpString then h.unicode2Gbk (changeEndianOrder s.data)
  else if s.type = vAsn1Utf8String then h.utf8ToGbk s.data
  else some s.data

structure HelpersSucceed (h : Helpers) (s : Asn1String) : Prop where
  bioNew : h.bioNew = true
  bioWrite : ∀ k < (s.data.length + 79) / 80, h.bioWrite k = true
  mallocText : h.mallocText = true
  mallocOut : s.type = vAsn1BmpString → h.mallocOut = true

/-- The text of the last entry with the NID; empty where there is none. -/
def nameText (h : Helpers) (name : X509Name) (nid : ℤ) : List UInt8 :=
  (((lastEntry name nid).bind (·.data)).bind (gbkText h)).getD []

def stored (s : Asn1String) (t : List UInt8) (m : Memory) (n : ℕ) : Memory :=
  if Converted s ∧ t = [] then m else store m n t

section Entry

variable {h : Helpers} {s : Asn1String} {t : List UInt8} {m : Memory} {n : ℕ}

theorem utf8_ne_bmp : vAsn1Utf8String ≠ vAsn1BmpString := by decide

theorem store_converted_eq (hconv : Converted s) :
    storeConverted ⟨m, some t⟩ n = stored s t m n := by
  by_cases ht : t = []
  · simp [storeConverted, stored, hconv, ht]
  · simp [storeConverted, stored, ht, List.length_pos_of_ne_nil ht]

theorem switch_bmp (htype : s.type = vAsn1BmpString) (hout : h.mallocOut = true) :
    (switchType h s.type s.data m n).map (storeConverted · n) =
      (gbkText h s).map fun t => stored s t m n := by
  have hconv : Converted s := Or.inl htype
  rw [switchType, if_pos htype, if_pos hout, gbkText]
  by_cases hnil : s.data = []
  · simp [hnil, storeConverted, stored, hconv]
  · rw [if_pos (List.length_pos_of_ne_nil hnil), if_neg hnil, if_pos htype, Option.map_map]
    congr 1
    funext t
    exact store_converted_eq hconv

theorem switch_utf8 (htype : s.type = vAsn1Utf8String) :
    (switchType h s.type s.data m n).map (storeConverted · n) =
      (gbkText h s).map fun t => stored s t m n := by
  have hconv : Converted s := Or.inr htype
  have hne : s.type ≠ vAsn1BmpString := htype ▸ utf8_ne_bmp
  rw [switchType, if_neg hne, if_pos htype, gbkText]
  by_cases hnil : s.data = []
  · simp [hnil, storeConverted, stored, hconv]
  · rw [if_pos (List.length_pos_of_ne_nil hnil), if_neg hnil, if_neg hne, if_pos htype,
      Option.map_map]
    congr 1
    funext t
    exact store_converted_eq hconv

theorem switch_copied (htype : ¬ Converted s) :
    (switchType h s.type s.data m n).map (storeConverted · n) =
      (gbkText h s).map fun t => stored s t m n := by
  have hbmp : s.type ≠ vAsn1BmpString := fun he => htype (Or.inl he)
  have hutf8 : s.type ≠ vAsn1Utf8String := fun he => htype (Or.inr he)
  rw [switchType, if_neg hbmp, if_neg hutf8, ite_self, gbkText]
  by_cases hnil : s.data = []
  · simp [hnil, storeConverted, stored, htype]
  · simp [hnil, hbmp, hutf8, storeConverted, stored, htype]

/-- The types differ in how the text comes about and in what an empty text does. -/
theorem switch_eq (hout : s.type = vAsn1BmpString → h.mallocOut = true) :
    (switchType h s.type s.data m n).map (storeConverted · n) =
      (gbkText h s).map fun t => stored s t m n := by
  by_cases hbmp : s.type = vAsn1BmpString
  · exact switch_bmp hbmp (hout hbmp)
  · by_cases hutf8 : s.type = vAsn1Utf8String
    · exact switch_utf8 hutf8
    · exact switch_copied (not_or.mpr ⟨hbmp, hutf8⟩)

theorem extract_of_success {e : X509NameEntry} (hdata : e.data = some s)
    (hok : HelpersSucceed h s) :
    extractEntry h (some e) m n = (gbkText h s).map fun t => stored s t m n := by
  have hdata' : (some e).bind (·.data) = some s := hdata
  have hprint : asn1StringPrint h.bioWrite s = some s.data := by
    rw [asn1_string_print_eq, if_pos hok.bioWrite]
  rw [← switch_eq hok.mallocOut, extractEntry, if_pos hok.bioNew, hdata']
  simp only [Option.bind_eq_bind, Option.bind_some, hprint, hok.mallocText, if_true]
  cases switchType h s.type s.data m n <;> rfl

theorem extract_of_failure {e : X509NameEntry} (hdata : e.data = some s)
    (hfail : ¬ HelpersSucceed h s) : extractEntry h (some e) m n = none := by
  have hdata' : (some e).bind (·.data) = some s := hdata
  unfold extractEntry
  by_cases hnew : h.bioNew = true
  · rw [if_pos hnew, hdata']
    simp only [Option.bind_eq_bind, Option.bind_some, asn1_string_print_eq]
    by_cases hwrite : ∀ k < (s.data.length + 79) / 80, h.bioWrite k = true
    · by_cases htext : h.mallocText = true
      · have hbmp : s.type = vAsn1BmpString ∧ ¬ h.mallocOut = true := by
          by_contra hno
          exact hfail ⟨hnew, hwrite, htext, fun htype => by
            by_contra hout
            exact hno ⟨htype, hout⟩⟩
        simp [htext, switchType, hbmp]
      · simp [htext]
    · simp [hwrite]
  · rw [if_neg hnew]

theorem extract_without_data {e : X509NameEntry} (hdata : e.data = none) :
    extractEntry h (some e) m n = none := by
  simp [extractEntry, hdata]

end Entry

inductive Ends (h : Helpers) (name : X509Name) (nid : ℤ) (m : Memory) (n : ℕ) :
    Extracted → Prop where
  | noEntry (hno : lastEntry name nid = none) : Ends h name nid m n ⟨0, m⟩
  | fails (e : X509NameEntry) (hlast : lastEntry name nid = some e)
      (hfail : ∀ s, e.data = some s → HelpersSucceed h s → gbkText h s = none) :
      Ends h name nid m n ⟨-1, m⟩
  | stores (e : X509NameEntry) (s : Asn1String) (t : List UInt8)
      (hlast : lastEntry name nid = some e) (hdata : e.data = some s)
      (hok : HelpersSucceed h s) (htext : gbkText h s = some t) :
      Ends h name nid m n ⟨0, stored s t m n⟩

section Call

variable (h : Helpers) (name : X509Name) (nid : ℤ) (m : Memory) {n : ℕ}

variable {h name nid} in
theorem extrat_text_stored {e : X509NameEntry} {s : Asn1String} {t : List UInt8} (hn : 0 < n)
    (hlast : lastEntry name nid = some e) (hdata : e.data = some s) (hok : HelpersSucceed h s)
    (htext : gbkText h s = some t) :
    extratTextByNid h (some name) nid m n = ⟨0, stored s t m n⟩ := by
  have hne : n ≠ 0 := Nat.ne_of_gt hn
  simp only [extratTextByNid, if_neg hne, if_pos (searched_some hlast), searched_entry, hlast,
    extract_of_success hdata hok, htext, Option.map_some]

theorem extrat_text_ends (hn : 0 < n) :
    Ends h name nid m n (extratTextByNid h (some name) nid m n) := by
  have hne : n ≠ 0 := Nat.ne_of_gt hn
  simp only [extratTextByNid, if_neg hne]
  cases hlast : lastEntry name nid with
  | none =>
    rw [if_neg (searched_none hlast)]
    exact .noEntry hlast
  | some e =>
    rw [if_pos (searched_some hlast), searched_entry, hlast]
    cases hdata : e.data with
    | none =>
      rw [extract_without_data hdata]
      exact .fails e hlast fun s hs => by simp [hdata] at hs
    | some s =>
      by_cases hok : HelpersSucceed h s
      · rw [extract_of_success hdata hok]
        cases htext : gbkText h s with
        | none =>
          refine .fails e hlast fun s' hs' _ => ?_
          obtain rfl := Option.some.inj (hdata.symm.trans hs')
          exact htext
        | some t => exact .stores e s t hlast hdata hok htext
      · rw [extract_of_failure hdata hok]
        refine .fails e hlast fun s' hs' hok' => ?_
        obtain rfl := Option.some.inj (hdata.symm.trans hs')
        exact absurd hok' hok

end Call

def expectedText (h : Helpers) (name : X509Name) (nid : ℤ) (n : ℕ) : List UInt8 :=
  if (nameText h name nid).length < n then nameText h name nid else []

/-- A call that returns 0 has left the expected text, as the reading has it, and no call has
written behind the buffer. -/
def RightText (reading : Memory → List UInt8 → Prop) (h : Helpers) (name : X509Name) (nid : ℤ)
    (m : Memory) (n : ℕ) : Prop :=
  ((extratTextByNid h (some name) nid m n).ret = 0 →
    reading (extratTextByNid h (some name) nid m n).buffer (expectedText h name nid n)) ∧
  SameFrom n m (extratTextByNid h (some name) nid m n).buffer

/-- A text is stored unless it is converted to nothing, and one that does not fit is cleared
unless there is one byte only. -/
def Stores (s : Asn1String) (t : List UInt8) (n : ℕ) : Prop :=
  (Converted s → t ≠ []) ∧ (t.length < n ∨ 2 ≤ n)

/-- There is an entry, and its text is stored if no call for it fails. -/
def Delivers (h : Helpers) (name : X509Name) (nid : ℤ) (n : ℕ) : Prop :=
  ∃ e, lastEntry name nid = some e ∧ ∀ s, e.data = some s → HelpersSucceed h s →
    ∀ t, gbkText h s = some t → Stores s t n

def NulFree (h : Helpers) (name : X509Name) (nid : ℤ) (n : ℕ) : Prop :=
  ∀ e, lastEntry name nid = some e → ∀ s, e.data = some s → HelpersSucceed h s →
    ∀ t, gbkText h s = some t → t.length < n → 0 ∉ t

section Contract

variable {h : Helpers} {name : X509Name} {nid : ℤ} {m : Memory} {n : ℕ}
  {e : X509NameEntry} {s : Asn1String} {t : List UInt8}

theorem name_text_of_last (hlast : lastEntry name nid = some e) (hdata : e.data = some s)
    (htext : gbkText h s = some t) : nameText h name nid = t := by
  simp [nameText, hlast, hdata, htext]

theorem name_text_without_entry (hno : lastEntry name nid = none) : nameText h name nid = [] := by
  simp [nameText, hno]

theorem expected_of_nil (hnil : nameText h name nid = []) :
    expectedText h name nid n = [] := by
  simp [expectedText, hnil]

theorem stored_unwritten (hconv : Converted s) : stored s [] m n = m := by
  simp [stored, hconv]

theorem stored_written (h : Converted s → t ≠ []) : stored s t m n = store m n t := by
  have hno : ¬ (Converted s ∧ t = []) := fun hboth => h hboth.1 hboth.2
  rw [stored, if_neg hno]

theorem store_fits (hlt : t.length < n) : store m n t = putText m t := by
  rw [store, if_neg (Nat.not_le.mpr hlt)]

theorem store_cut (hle : n ≤ t.length) : store m n t = fill m (n - 1) := by
  rw [store, if_pos hle]

theorem same_from_store : SameFrom n m (store m n t) := by
  by_cases hlt : t.length < n
  · rw [store_fits hlt]
    exact sameFrom_putText hlt
  · rw [store_cut (Nat.not_lt.mp hlt)]
    exact sameFrom_fill (Nat.sub_le n 1)

theorem same_from_stored : SameFrom n m (stored s t m n) := by
  by_cases hnil : Converted s ∧ t = []
  · rw [stored, if_pos hnil]
    exact sameFrom_refl
  · rw [stored, if_neg hnil]
    exact same_from_store

/-- Nothing behind the buffer is written, however the call ends. -/
theorem same_from_extracted (hn : 0 < n) :
    SameFrom n m (extratTextByNid h (some name) nid m n).buffer := by
  have hends := extrat_text_ends h name nid m hn
  generalize extratTextByNid h (some name) nid m n = x at hends ⊢
  cases hends with
  | noEntry => exact sameFrom_refl
  | fails => exact sameFrom_refl
  | stores => exact same_from_stored

/-- The stored text ends where it should if and only if it was stored, or an empty buffer was
left alone. -/
theorem ends_stored_iff (hn : 0 < n) :
    EndsWithin n (stored s t m n) (if t.length < n then t else []) ↔ Stores s t n ∨ m 0 = 0 := by
  by_cases hwritten : Converted s → t ≠ []
  · rw [stored_written hwritten]
    by_cases hlt : t.length < n
    · rw [store_fits hlt, if_pos hlt]
      exact iff_of_true (endsWithin_putText hlt) (Or.inl ⟨hwritten, Or.inl hlt⟩)
    · rw [store_cut (Nat.not_lt.mp hlt), if_neg hlt, endsWithin_nil_iff hn]
      by_cases htwo : 2 ≤ n
      · exact iff_of_true (fill_first (by omega)) (Or.inl ⟨hwritten, Or.inr htwo⟩)
      · have hno : ¬ Stores s t n := fun hs => hs.2.elim hlt htwo
        have hone : n - 1 = 0 := by omega
        rw [hone, fill_zero, or_iff_right hno]
  · obtain ⟨hconv, hnil⟩ := Classical.not_imp.mp hwritten
    have hno : ¬ Stores s t n := fun hs => hwritten hs.1
    obtain rfl := not_not.mp hnil
    rw [stored_unwritten hconv, ite_self, endsWithin_nil_iff hn, or_iff_right hno]

theorem delivers_of_stores (hlast : lastEntry name nid = some e) (hdata : e.data = some s)
    (hok : HelpersSucceed h s) (htext : gbkText h s = some t) :
    Delivers h name nid n ↔ Stores s t n := by
  constructor
  · rintro ⟨e', hlast', hstores⟩
    obtain rfl := Option.some.inj (hlast.symm.trans hlast')
    exact hstores s hdata hok t htext
  · intro hstores
    refine ⟨e, hlast, fun s' hdata' _ t' htext' => ?_⟩
    obtain rfl := Option.some.inj (hdata.symm.trans hdata')
    obtain rfl := Option.some.inj (htext.symm.trans htext')
    exact hstores

theorem nul_free_of_stores (hlast : lastEntry name nid = some e) (hdata : e.data = some s)
    (hok : HelpersSucceed h s) (htext : gbkText h s = some t) :
    NulFree h name nid n ↔ 0 ∉ expectedText h name nid n := by
  rw [expectedText, name_text_of_last hlast hdata htext]
  constructor
  · intro hfree
    by_cases hlt : t.length < n
    · rw [if_pos hlt]
      exact hfree e hlast s hdata hok t htext hlt
    · rw [if_neg hlt]
      exact List.not_mem_nil
  · intro hno e' hlast' s' hdata' _ t' htext' hlt
    obtain rfl := Option.some.inj (hlast.symm.trans hlast')
    obtain rfl := Option.some.inj (hdata.symm.trans hdata')
    obtain rfl := Option.some.inj (htext.symm.trans htext')
    rwa [if_pos hlt] at hno

theorem delivers_of_failure (hlast : lastEntry name nid = some e)
    (hfail : ∀ s, e.data = some s → HelpersSucceed h s → gbkText h s = none) :
    Delivers h name nid n ∧ NulFree h name nid n := by
  constructor
  · refine ⟨e, hlast, fun s hdata hok t htext => ?_⟩
    exact absurd ((hfail s hdata hok).symm.trans htext) (by simp)
  · intro e' hlast' s hdata hok t htext
    obtain rfl := Option.some.inj (hlast.symm.trans hlast')
    exact absurd ((hfail s hdata hok).symm.trans htext) (by simp)

theorem not_delivers_without_entry (hno : lastEntry name nid = none) :
    ¬ Delivers h name nid n := by
  rintro ⟨e, hlast, -⟩
  simp [hno] at hlast

theorem nul_free_without_entry (hno : lastEntry name nid = none) : NulFree h name nid n := by
  intro e hlast
  simp [hno] at hlast

/-- A buffer with a NUL at its start is safe with any call. -/
theorem ends_within_iff (hn : 0 < n) :
    RightText (EndsWithin n) h name nid m n ↔ Delivers h name nid n ∨ m 0 = 0 := by
  rw [RightText, and_iff_left (same_from_extracted hn)]
  have hends := extrat_text_ends h name nid m hn
  generalize extratTextByNid h (some name) nid m n = x at hends ⊢
  cases hends with
  | noEntry hno =>
    simp only [expected_of_nil (name_text_without_entry hno), forall_const,
      endsWithin_nil_iff hn, or_iff_right (not_delivers_without_entry hno)]
  | fails e hlast hfail =>
    refine iff_of_true (fun hret => ?_) (Or.inl (delivers_of_failure hlast hfail).1)
    exact absurd hret (by simp)
  | stores e s t hlast hdata hok htext =>
    simp only [expectedText, name_text_of_last hlast hdata htext, forall_const,
      ends_stored_iff hn, delivers_of_stores hlast hdata hok htext]

/-- What a C function reads then is the text if and only if it has no NUL of its own. -/
theorem c_string_iff (hn : 0 < n) :
    RightText (fun b t => cString b n = some t) h name nid m n ↔
      RightText (EndsWithin n) h name nid m n ∧ NulFree h name nid n := by
  simp only [RightText, and_iff_left (same_from_extracted hn), cString_eq_some_iff]
  have hends := extrat_text_ends h name nid m hn
  generalize extratTextByNid h (some name) nid m n = x at hends ⊢
  cases hends with
  | noEntry hno =>
    rw [expected_of_nil (name_text_without_entry hno),
      and_iff_left (nul_free_without_entry hno)]
    simp
  | fails e hlast hfail =>
    have hno : ((-1 : ℤ) = 0) = False := by decide
    simp only [hno, false_imp_iff, true_and, true_iff]
    exact (delivers_of_failure hlast hfail).2
  | stores e s t hlast hdata hok htext =>
    simp only [forall_const, nul_free_of_stores hlast hdata hok htext]

end Contract

/-- The right text is left if and only if it is stored, or there is nothing to store and the
buffer begins with a NUL already. -/
theorem name_text_right_iff (h : Helpers) (name : X509Name) (nid : ℤ) (m : Memory) (n : ℕ)
    (hn : 1 ≤ n) :
    (RightText (EndsWithin n) h name nid m n ↔ Delivers h name nid n ∨ m 0 = 0) ∧
      (RightText (fun b t => cString b n = some t) h name nid m n ↔
        (Delivers h name nid n ∨ m 0 = 0) ∧ NulFree h name nid n) := by
  refine ⟨ends_within_iff hn, ?_⟩
  rw [c_string_iff hn, ends_within_iff hn]

def asciiHelpers : Helpers where
  bioNew := true
  bioWrite _ := true
  mallocText := true
  mallocOut := true
  unicode2Gbk bs := some (bs.filter (· ≠ 0))
  utf8ToGbk bs := some bs

def staleBuffer : Memory := putText (fun _ => 0) [111, 108, 100]

def unitName : X509Name := [⟨nidOrganizationalUnitName, some ⟨vAsn1Utf8String, [67, 65]⟩⟩]

theorem name_text_right_sample :
    RightText (fun b t => cString b 8 = some t) asciiHelpers unitName nidOrganizationalUnitName
      staleBuffer 8 := by
  refine (name_text_right_iff asciiHelpers unitName nidOrganizationalUnitName staleBuffer 8
    (by decide)).2.mpr ⟨Or.inl ⟨_, rfl, ?_⟩, ?_⟩
  · rintro s ⟨⟩ - t ⟨⟩
    exact ⟨by decide, by decide⟩
  · rintro e ⟨⟩ s ⟨⟩ - t ⟨⟩ -
    decide

/-- Without an entry the call returns 0 and the buffer holds what it held. -/
theorem missing_name_keeps_stale_text :
    ¬ RightText (EndsWithin 8) asciiHelpers unitName nidCommonName staleBuffer 8 := by
  rw [ends_within_iff (by decide)]
  rintro (hdelivers | hzero)
  · exact not_delivers_without_entry rfl hdelivers
  · exact absurd hzero (by decide)

end NameTextContract
