import MakeDownFile.CngClient

/-! # The subject of a certificate against a wanted value

A value in a subject is counted data, compared as a C string, and only the first entry with
the NID is compared. An int that is no NID makes OpenSSL answer -2 instead of -1. -/
namespace CngClientSubject

open CngClient

/-- X509_NAME_get_index_by_NID from the start, `isNid` telling the ints OpenSSL has an
object for. -/
def x509NameGetIndexByNid (isNid : ℕ → Bool) (name : List X509NameEntry) (nid : ℕ) : ℤ :=
  if ¬ isNid nid then -2
  else
    match name.findIdx? fun e => e.nid = nid with
    | none => -1
    | some i => i

def x509NameGetEntry (name : List X509NameEntry) (loc : ℤ) : Option X509NameEntry :=
  if loc < 0 then none else name[loc.toNat]?

/-- X509_has_attribute_value for any int; `none` is a dereference of NULL. -/
def x509HasAttributeValueOf (isNid : ℕ → Bool) (cert : X509) (nid : ℕ) (commonName : List UInt8) :
    Option Bool :=
  match cert.subject with
  | none => some false
  | some name =>
    if x509NameGetIndexByNid isNid name nid = -1 then some false
    else
      match x509NameGetEntry name (x509NameGetIndexByNid isNid name nid) with
      | none => none
      | some e => some (cString commonName = cString e.data)

def SubjectContains (cert : X509) (nid : ℕ) (value : List UInt8) : Prop :=
  ∃ name, cert.subject = some name ∧ ∃ e ∈ name, e.nid = nid ∧ e.data = value

def firstWithNid (name : List X509NameEntry) (nid : ℕ) : Option X509NameEntry :=
  name.find? fun e => e.nid = nid

/-- The first entry with the NID goes on after the wanted value and a NUL, and no other
entry with the NID has that value. -/
def Truncated (name : List X509NameEntry) (nid : ℕ) (value : List UInt8) : Prop :=
  ∃ e, firstWithNid name nid = some e ∧ value ++ [0] <+: e.data ∧
    ∀ d ∈ name, d.nid = nid → d.data ≠ value

/-- A later entry with the NID has the wanted value, and the first one neither has it nor
goes on with a NUL after it. -/
def Shadowed (name : List X509NameEntry) (nid : ℕ) (value : List UInt8) : Prop :=
  ∃ e, firstWithNid name nid = some e ∧ e.data ≠ value ∧ ¬ value ++ [0] <+: e.data ∧
    ∃ d ∈ name, d.nid = nid ∧ d.data = value

section Match

variable {isNid : ℕ → Bool} {cert : X509} {name : List X509NameEntry} {nid : ℕ}
  {value data : List UInt8}

/-- What strcmp takes for the value: the value itself, or anything that starts with it and
a NUL. -/
theorem c_string_eq_iff (h : (0 : UInt8) ∉ value) :
    cString data = value ↔ data = value ∨ value ++ [0] <+: data := by
  induction data generalizing value with
  | nil => simp [cString]
  | cons b data ih =>
    by_cases hb : b = 0
    · subst hb
      cases value with
      | nil => simp [cString]
      | cons v value =>
        have hv : (0 : UInt8) ≠ v := fun he => h (he ▸ List.mem_cons_self)
        simp [cString, hv, hv.symm]
    · have hcons : cString (b :: data) = b :: cString data := by simp [cString, hb]
      rw [hcons]
      cases value with
      | nil => simp [Ne.symm hb]
      | cons v value =>
        have hrest := @ih value fun hm => h (List.mem_cons_of_mem v hm)
        simp only [List.cons.injEq, List.cons_append, List.cons_prefix_cons, hrest]
        constructor
        · rintro ⟨rfl, he | he⟩
          · exact Or.inl ⟨rfl, he⟩
          · exact Or.inr ⟨rfl, he⟩
        · rintro (⟨rfl, he⟩ | ⟨rfl, he⟩)
          · exact ⟨rfl, Or.inl he⟩
          · exact ⟨rfl, Or.inr he⟩

theorem has_attribute_value_of_nid (hnid : isNid nid = true) :
    x509HasAttributeValueOf isNid cert nid value = some (x509HasAttributeValue cert nid value) := by
  unfold x509HasAttributeValueOf x509HasAttributeValue
  cases cert.subject with
  | none => rfl
  | some name =>
    cases hidx : name.findIdx? fun e => e.nid = nid with
    | none =>
      have hfind : (name.find? fun e => e.nid = nid) = none := by
        rw [List.find?_eq_none]
        simpa using List.findIdx?_eq_none_iff.mp hidx
      simp [x509NameGetIndexByNid, hnid, hidx, hfind]
    | some i =>
      obtain ⟨hi, hnid', hbefore⟩ := List.findIdx?_eq_some_iff_getElem.mp hidx
      have hfind : (name.find? fun e => e.nid = nid) = some name[i] :=
        List.find?_eq_some_iff_getElem.mpr ⟨hnid', i, hi, rfl, by simpa using hbefore⟩
      have hloc : ¬ (i : ℤ) < 0 := by omega
      simp [x509NameGetIndexByNid, x509NameGetEntry, hnid, hidx, hfind, hi, hloc]

theorem has_attribute_value_no_nid (hnid : isNid nid = false) (hname : cert.subject = some name) :
    x509HasAttributeValueOf isNid cert nid value = none := by
  simp [x509HasAttributeValueOf, hname, x509NameGetIndexByNid, x509NameGetEntry, hnid]

/-- For a name and a NID, the comparison tells whether the name has the value exactly when
the first entry neither truncates nor shadows it. -/
theorem first_entry_tells_iff (hv : (0 : UInt8) ∉ value) :
    ((∃ e, firstWithNid name nid = some e ∧ cString value = cString e.data) ↔
      ∃ e ∈ name, e.nid = nid ∧ e.data = value) ↔
    ¬ Truncated name nid value ∧ ¬ Shadowed name nid value := by
  cases hfirst : firstWithNid name nid with
  | none =>
    have hall := List.find?_eq_none.mp hfirst
    refine iff_of_true (iff_of_false ?_ ?_) ⟨?_, ?_⟩
    · rintro ⟨e, he, _⟩
      cases he
    · rintro ⟨e, he, hnid, _⟩
      exact hall e he (by simpa using hnid)
    · rintro ⟨e, he, _⟩
      rw [hfirst] at he
      cases he
    · rintro ⟨e, he, _⟩
      rw [hfirst] at he
      cases he
  | some e =>
    have hmem : e ∈ name := List.mem_of_find?_eq_some hfirst
    have hnid : e.nid = nid := by simpa using List.find?_some hfirst
    have hself : cString value = value := (c_string_eq_iff hv).mpr (Or.inl rfl)
    have hequal : (∃ e', some e = some e' ∧ cString value = cString e'.data) ↔
        e.data = value ∨ value ++ [0] <+: e.data := by
      rw [← c_string_eq_iff hv, hself]
      simp [eq_comm]
    have htrunc : Truncated name nid value ↔ value ++ [0] <+: e.data ∧
        ¬ ∃ d ∈ name, d.nid = nid ∧ d.data = value := by
      simp [Truncated, hfirst]
    have hshadow : Shadowed name nid value ↔ e.data ≠ value ∧ ¬ value ++ [0] <+: e.data ∧
        ∃ d ∈ name, d.nid = nid ∧ d.data = value := by
      simp [Shadowed, hfirst]
    have hcontains : e.data = value → ∃ d ∈ name, d.nid = nid ∧ d.data = value :=
      fun h => ⟨e, hmem, hnid, h⟩
    rw [hequal, htrunc, hshadow]
    constructor
    · intro h
      exact ⟨fun ht => ht.2 (h.mp (Or.inr ht.1)), fun hs => (h.mpr hs.2.2).elim hs.1 hs.2.1⟩
    · rintro ⟨htrunc, hshadow⟩
      constructor
      · rintro (heq | hstarts)
        · exact hcontains heq
        · exact not_not.mp fun hno => htrunc ⟨hstarts, hno⟩
      · intro hother
        by_contra hno
        rw [not_or] at hno
        exact hshadow ⟨hno.1, hno.2, hother⟩

/-- X509_has_attribute_value answers whether the subject contains the value, exactly when
it is asked for a NID and the first entry with it neither truncates nor shadows the value. -/
theorem has_attribute_value_iff (hv : (0 : UInt8) ∉ value) :
    (∃ b, x509HasAttributeValueOf isNid cert nid value = some b ∧
      (b = true ↔ SubjectContains cert nid value)) ↔
    ∀ name, cert.subject = some name →
      isNid nid = true ∧ ¬ Truncated name nid value ∧ ¬ Shadowed name nid value := by
  cases hname : cert.subject with
  | none =>
    refine iff_of_true ⟨false, by rw [x509HasAttributeValueOf, hname], ?_⟩ fun name h => nomatch h
    simp [SubjectContains, hname]
  | some name =>
    cases hnid : isNid nid with
    | false =>
      rw [has_attribute_value_no_nid hnid hname]
      simp
    | true =>
      have hfirst : x509HasAttributeValue cert nid value = true ↔
          ∃ e, firstWithNid name nid = some e ∧ cString value = cString e.data := by
        simp only [x509HasAttributeValue, hname, firstWithNid]
        cases name.find? fun e => e.nid = nid with
        | none => simp
        | some e => simp
      have hcontains : SubjectContains cert nid value ↔
          ∃ e ∈ name, e.nid = nid ∧ e.data = value := by
        simp [SubjectContains, hname]
      rw [has_attribute_value_of_nid hnid]
      simp only [Option.some.injEq, exists_eq_left', hfirst, hcontains, first_entry_tells_iff hv]
      simp

end Match

theorem has_attribute_value_iff_sample :
    (∃ b, x509HasAttributeValueOf (fun _ => true) ⟨matchingSubject, none⟩ nidCommonName
        searchValue = some b ∧
      (b = true ↔ SubjectContains ⟨matchingSubject, none⟩ nidCommonName searchValue)) ↔
    ∀ name, matchingSubject = some name → true = true ∧
      ¬ Truncated name nidCommonName searchValue ∧ ¬ Shadowed name nidCommonName searchValue :=
  @has_attribute_value_iff (fun _ => true) ⟨matchingSubject, none⟩ nidCommonName searchValue
    (by decide)

/-- A common name that goes on after a NUL, and one that only comes second. -/
def truncatedSubject : X509 := ⟨some [⟨nidCommonName, searchValue ++ [0, 0x61]⟩], none⟩
def shadowedSubject : X509 := ⟨some [⟨nidCommonName, [0x61]⟩, ⟨nidCommonName, searchValue⟩], none⟩

theorem subject_match_inexact :
    (x509HasAttributeValueOf (fun _ => true) truncatedSubject nidCommonName searchValue =
        some true ∧ ¬ SubjectContains truncatedSubject nidCommonName searchValue) ∧
      x509HasAttributeValueOf (fun _ => true) shadowedSubject nidCommonName searchValue =
        some false ∧ SubjectContains shadowedSubject nidCommonName searchValue := by
  refine ⟨⟨rfl, ?_⟩, rfl, ?_⟩
  · rintro ⟨name, hname, e, he, _, hdata⟩
    cases hname
    obtain rfl := List.mem_singleton.mp he
    exact absurd hdata (by decide)
  · exact ⟨_, rfl, ⟨nidCommonName, searchValue⟩, by decide, rfl, rfl⟩

end CngClientSubject
