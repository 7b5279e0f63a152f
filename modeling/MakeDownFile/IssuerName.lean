import MakeDownFile.NameTextContract

/-! # The issuer that a client reports

The common name comes first, and the organizational unit where it is empty. Whether it is empty is
read from the buffer, whether or not anything has been written there. -/
namespace IssuerName

open CallerMemory
open NameText
open NameTextContract

/-- A certificate by its two names. What is parsed as a subject has data in its entries. -/
structure X509 where
  issuer : X509Name
  subject : X509Name
  subject_data : ∀ e ∈ subject, ∃ s, e.data = some s

/-- pcIssuerName and pcSubName. -/
structure NameBuffers where
  issuerName : Memory
  subName : Memory

/-- X509_NAME_get_text_by_NID: the first entry, cut to fit; `none` is a dereference of NULL. -/
def x509NameGetTextByNid (name : X509Name) (nid : ℤ) (m : Memory) (len : ℕ) : Option Memory :=
  match x509NameGetEntry name (x509NameGetIndexByNid name nid (-1)) with
  | none => some m
  | some e => e.data.map fun s => putText m (s.data.take (len - 1))

/-- The common name of an issuer, or else its unit; `none` where strlen reads on behind the
buffer. -/
def issuerBuffer (h : Helpers) (pstX509Name : X509Name) (pcIssuerName : Memory)
    (uiIssUerNameLen : ℕ) : Option Memory :=
  let pcIssuerName :=
    (extratTextByNid h (some pstX509Name) nidCommonName pcIssuerName uiIssUerNameLen).buffer
  (strlen pcIssuerName uiIssUerNameLen).map fun len =>
    if len ≠ 0 then pcIssuerName
    else (extratTextByNid h (some pstX509Name) nidOrganizationalUnitName pcIssuerName
      uiIssUerNameLen).buffer

/-- The issuer of the last certificate and the subject of the first. -/
def getNames (h : Helpers) (last first : X509) (b : NameBuffers) (uiIssUerNameLen : ℕ) :
    Option NameBuffers := do
  let pcIssuerName ← issuerBuffer h last.issuer b.issuerName uiIssUerNameLen
  let pcSubName ← x509NameGetTextByNid first.subject nidCommonName b.subName 256
  return ⟨pcIssuerName, pcSubName⟩

/-- NETC_Get_SSL_ServiceCertIssuerName for pointers that are not NULL, with what
SSL_get_peer_cert_chain returns. -/
def getSslServiceCertIssuerName (h : Helpers) (chain : Option (List X509)) (b : NameBuffers)
    (uiIssUerNameLen : ℕ) : Option NameBuffers :=
  if uiIssUerNameLen = 0 then some b
  else
    match chain with
    | none => some b
    | some sk =>
      match sk.getLast?, sk.head? with
      | some last, some first => getNames h last first b uiIssUerNameLen
      | _, _ => some b

def issuerText (h : Helpers) (name : X509Name) : List UInt8 :=
  if nameText h name nidCommonName ≠ [] then nameText h name nidCommonName
  else nameText h name nidOrganizationalUnitName

def ReportsIssuer (h : Helpers) (chain : List X509) (text : List UInt8) (n : ℕ) : Prop :=
  ∀ b, ∃ b', getSslServiceCertIssuerName h (some chain) b n = some b' ∧
    cString b'.issuerName n = some text

def Copies (h : Helpers) (name : X509Name) (nid : ℤ) (n : ℕ) : Prop :=
  ∃ e s t, lastEntry name nid = some e ∧ e.data = some s ∧ HelpersSucceed h s ∧
    gbkText h s = some t ∧ t ≠ [] ∧ 0 ∉ t ∧ t.length < n

def ClearsBuffer (h : Helpers) (name : X509Name) (nid : ℤ) : Prop :=
  ∃ e s, lastEntry name nid = some e ∧ e.data = some s ∧ HelpersSucceed h s ∧
    ¬ Converted s ∧ s.data = []

/-- The common name is written, or it clears the buffer for a unit that is written or empty. -/
def Determined (h : Helpers) (name : X509Name) (n : ℕ) : Prop :=
  Copies h name nidCommonName n ∨
    (ClearsBuffer h name nidCommonName ∧
      (nameText h name nidOrganizationalUnitName = [] ∨
        Copies h name nidOrganizationalUnitName n))

section Names

variable {h : Helpers} {name : X509Name} {nid : ℤ} {m : Memory} {n : ℕ}

theorem entry_mem {loc : ℤ} {e : X509NameEntry} (hentry : x509NameGetEntry name loc = some e) :
    e ∈ name := by
  by_cases hneg : loc < 0
  · simp [x509NameGetEntry, hneg] at hentry
  · rw [x509NameGetEntry, if_neg hneg] at hentry
    exact List.mem_of_getElem? hentry

theorem subject_text_read (c : X509) (len : ℕ) :
    ∃ m', x509NameGetTextByNid c.subject nid m len = some m' := by
  unfold x509NameGetTextByNid
  cases hentry : x509NameGetEntry c.subject (x509NameGetIndexByNid c.subject nid (-1)) with
  | none => exact ⟨m, rfl⟩
  | some e =>
    obtain ⟨s, hs⟩ := c.subject_data e (entry_mem hentry)
    refine ⟨putText m (s.data.take (len - 1)), ?_⟩
    simp only [hs, Option.map_some]

/-- What is reported depends on the buffer of the issuer only. -/
theorem get_names_iff (last first : X509) (b : NameBuffers) (text : List UInt8) :
    (∃ b', getNames h last first b n = some b' ∧ cString b'.issuerName n = some text) ↔
      (issuerBuffer h last.issuer b.issuerName n).bind (cString · n) = some text := by
  obtain ⟨sub, hsub⟩ : ∃ sub, x509NameGetTextByNid first.subject nidCommonName b.subName 256 =
      some sub := subject_text_read first 256
  cases hbuffer : issuerBuffer h last.issuer b.issuerName n with
  | none => simp [getNames, hbuffer]
  | some m => simp [getNames, hbuffer, hsub]

theorem extrat_copied (hn : 0 < n) (hcopies : Copies h name nid n) :
    (extratTextByNid h (some name) nid m n).buffer = putText m (nameText h name nid) ∧
      nameText h name nid ≠ [] ∧ 0 ∉ nameText h name nid ∧ (nameText h name nid).length < n := by
  obtain ⟨e, s, t, hlast, hdata, hok, htext, hne, hno, hlt⟩ := hcopies
  rw [extrat_text_stored m hn hlast hdata hok htext, name_text_of_last hlast hdata htext,
    stored_written fun _ => hne, store_fits hlt]
  exact ⟨rfl, hne, hno, hlt⟩

theorem extrat_cleared (hn : 0 < n) (hclears : ClearsBuffer h name nid) :
    (extratTextByNid h (some name) nid m n).buffer = putText m [] ∧ nameText h name nid = [] := by
  obtain ⟨e, s, hlast, hdata, hok, hcopied, hnil⟩ := hclears
  have htext : gbkText h s = some [] := if_pos hnil
  rw [extrat_text_stored m hn hlast hdata hok htext,
    stored_written fun hconv => absurd hconv hcopied, store_fits hn]
  exact ⟨rfl, name_text_of_last hlast hdata htext⟩

theorem extrat_nil (hn : 0 < n) (hnil : nameText h name nid = []) (hzero : m 0 = 0) :
    (extratTextByNid h (some name) nid m n).buffer 0 = 0 := by
  have hends := extrat_text_ends h name nid m hn
  generalize extratTextByNid h (some name) nid m n = x at hends ⊢
  cases hends with
  | noEntry => exact hzero
  | fails => exact hzero
  | stores e s t hlast hdata hok htext =>
    obtain rfl : t = [] := (name_text_of_last hlast hdata htext).symm.trans hnil
    by_cases hconv : Converted s
    · rw [stored_unwritten hconv]
      exact hzero
    · rw [stored_written fun h => absurd h hconv, store_fits hn]
      exact nul_putText (m := m) (t := [])

theorem issuer_text_of_common (hne : nameText h name nidCommonName ≠ []) :
    issuerText h name = nameText h name nidCommonName := if_pos hne

theorem issuer_text_of_unit (hnil : nameText h name nidCommonName = []) :
    issuerText h name = nameText h name nidOrganizationalUnitName :=
  if_neg (not_not.mpr hnil)

theorem buffer_of_common {t : List UInt8} (hne : t ≠ []) (hno : 0 ∉ t) (hlt : t.length < n)
    (hput : (extratTextByNid h (some name) nidCommonName m n).buffer = putText m t) :
    issuerBuffer h name m n = some (putText m t) := by
  have hlen : t.length ≠ 0 := Nat.ne_of_gt (List.length_pos_of_ne_nil hne)
  have hstrlen := strlen_of_cString (cString_putText (m := m) hlt hno)
  simp only [issuerBuffer, hput, hstrlen, Option.map_some, if_pos hlen]

theorem buffer_of_unit (hn : 0 < n)
    (hzero : (extratTextByNid h (some name) nidCommonName m n).buffer 0 = 0) :
    issuerBuffer h name m n = some (extratTextByNid h (some name) nidOrganizationalUnitName
      (extratTextByNid h (some name) nidCommonName m n).buffer n).buffer := by
  have hstrlen := strlen_of_cString ((cString_nil_iff hn).mpr hzero)
  simp [issuerBuffer, hstrlen]

theorem reported_of_common (hn : 0 < n) (hcopies : Copies h name nidCommonName n) :
    (issuerBuffer h name m n).bind (cString · n) = some (issuerText h name) := by
  obtain ⟨hput, hne, hno, hlt⟩ := extrat_copied (m := m) hn hcopies
  rw [buffer_of_common hne hno hlt hput, issuer_text_of_common hne]
  exact cString_putText hlt hno

theorem reported_of_unit (hn : 0 < n) (hclears : ClearsBuffer h name nidCommonName)
    (hunit : nameText h name nidOrganizationalUnitName = [] ∨
      Copies h name nidOrganizationalUnitName n) :
    (issuerBuffer h name m n).bind (cString · n) = some (issuerText h name) := by
  obtain ⟨hput, hnil⟩ := extrat_cleared (m := m) hn hclears
  have hzero : (extratTextByNid h (some name) nidCommonName m n).buffer 0 = 0 := by
    rw [hput]
    exact nul_putText (m := m) (t := [])
  rw [buffer_of_unit hn hzero, issuer_text_of_unit hnil]
  cases hunit with
  | inl hempty =>
    rw [hempty]
    exact (cString_nil_iff hn).mpr (extrat_nil hn hempty hzero)
  | inr hcopies =>
    obtain ⟨hputUnit, -, hno, hlt⟩ := extrat_copied (m := putText m []) hn hcopies
    rw [hput, Option.bind_some, hputUnit]
    exact cString_putText hlt hno

/-- Nothing is reported from a buffer without a NUL that the common name is not written to. -/
theorem unreported_of_unwritten
    (hsame : (extratTextByNid h (some name) nidCommonName ones n).buffer = ones) :
    issuerBuffer h name ones n = none := by
  simp only [issuerBuffer, hsame, strlen_ones, Option.map_none]

theorem data_nil_of_text_nil {s : Asn1String} (hcopied : ¬ Converted s)
    (htext : gbkText h s = some []) : s.data = [] := by
  by_contra hne
  rw [gbkText, if_neg hne, if_neg fun htype => hcopied (Or.inl htype),
    if_neg fun htype => hcopied (Or.inr htype)] at htext
  exact hne (Option.some.inj htext)

/-- What is reported in the end was written by the unit, if it is not empty. -/
theorem copies_of_reported (hn : 0 < n) (hzero : m 0 = 0)
    (hreported : cString (extratTextByNid h (some name) nid m n).buffer n =
      some (nameText h name nid)) :
    nameText h name nid = [] ∨ Copies h name nid n := by
  by_cases hnil : nameText h name nid = []
  · exact Or.inl hnil
  · have hempty : cString m n = some [] := (cString_nil_iff hn).mpr hzero
    have hlt := length_of_cString hreported
    have hno := (cString_eq_some_iff.mp hreported).2
    have hends := extrat_text_ends h name nid m hn
    generalize extratTextByNid h (some name) nid m n = x at hends hreported
    cases hends with
    | noEntry => exact absurd (Option.some.inj (hreported.symm.trans hempty)) hnil
    | fails => exact absurd (Option.some.inj (hreported.symm.trans hempty)) hnil
    | stores e s t hlast hdata hok htext =>
      obtain rfl := name_text_of_last hlast hdata htext
      exact Or.inr ⟨e, s, _, hlast, hdata, hok, htext, hnil, hno, hlt⟩

theorem determined_of_reported (hn : 0 < n)
    (hreported : ∀ m, (issuerBuffer h name m n).bind (cString · n) = some (issuerText h name)) :
    Determined h name n := by
  have hones := hreported ones
  obtain ⟨b, hb, htext⟩ := Option.bind_eq_some_iff.mp hones
  have hlt := length_of_cString htext
  have hno := (cString_eq_some_iff.mp htext).2
  have hwritten : (extratTextByNid h (some name) nidCommonName ones n).buffer ≠ ones := by
    intro hsame
    simp [unreported_of_unwritten hsame] at hb
  have hends := extrat_text_ends h name nidCommonName ones hn
  generalize extratTextByNid h (some name) nidCommonName ones n = x at hends hwritten
  cases hends with
  | noEntry => exact absurd rfl hwritten
  | fails => exact absurd rfl hwritten
  | stores e s t hlast hdata hok hgbk =>
    have hname := name_text_of_last hlast hdata hgbk
    by_cases hnil : t = []
    · subst hnil
      have hcopied : ¬ Converted s := fun hconv => hwritten (stored_unwritten hconv)
      have hclears : ClearsBuffer h name nidCommonName :=
        ⟨e, s, hlast, hdata, hok, hcopied, data_nil_of_text_nil hcopied hgbk⟩
      refine Or.inr ⟨hclears, ?_⟩
      have hzero : (extratTextByNid h (some name) nidCommonName ones n).buffer 0 = 0 := by
        rw [(extrat_cleared hn hclears).1]
        exact nul_putText (t := [])
      rw [buffer_of_unit hn hzero] at hb
      obtain rfl := Option.some.inj hb
      rw [issuer_text_of_unit hname] at htext
      exact copies_of_reported hn hzero htext
    · rw [issuer_text_of_common (hname ▸ hnil), hname] at hlt hno
      exact Or.inl ⟨e, s, t, hlast, hdata, hok, hgbk, hnil, hno, hlt⟩

theorem get_issuer_of_chain {chain : List X509} (hne : chain ≠ []) (hn : 0 < n)
    (b : NameBuffers) :
    getSslServiceCertIssuerName h (some chain) b n =
      getNames h (chain.getLast hne) (chain.head hne) b n := by
  simp only [getSslServiceCertIssuerName, if_neg (Nat.ne_of_gt hn),
    List.getLast?_eq_some_getLast hne, List.head?_eq_some_head hne]

theorem reports_iff {chain : List X509} (hne : chain ≠ []) (hn : 0 < n) (text : List UInt8) :
    ReportsIssuer h chain text n ↔
      ∀ m, (issuerBuffer h (chain.getLast hne).issuer m n).bind (cString · n) = some text := by
  simp only [ReportsIssuer, get_issuer_of_chain hne hn, get_names_iff]
  exact ⟨fun hall m => hall ⟨m, m⟩, fun hall b => hall b.issuerName⟩

end Names

/-- The issuer depends on the chain alone if and only if its common name is always written. -/
theorem issuer_determined_iff (h : Helpers) (chain : List X509) (hne : chain ≠ []) (n : ℕ)
    (hn : 1 ≤ n) :
    ReportsIssuer h chain (issuerText h (chain.getLast hne).issuer) n ↔
      Determined h (chain.getLast hne).issuer n := by
  rw [reports_iff hne hn]
  constructor
  · exact determined_of_reported hn
  · rintro (hcopies | ⟨hclears, hunit⟩) m
    · exact reported_of_common hn hcopies
    · exact reported_of_unit hn hclears hunit

def namedCertificate : X509 where
  issuer := [⟨nidCommonName, some ⟨vAsn1Utf8String, [67, 65]⟩⟩]
  subject := []
  subject_data := by simp

theorem issuer_determined_sample : ReportsIssuer asciiHelpers [namedCertificate] [67, 65] 256 := by
  refine (issuer_determined_iff asciiHelpers [namedCertificate] (by simp) 256 (by decide)).mpr
    (Or.inl ⟨_, _, _, rfl, rfl, ⟨rfl, ?_, rfl, ?_⟩, rfl, by decide, by decide, by decide⟩)
  · exact fun _ _ => rfl
  · exact fun _ => rfl

def unitCertificate : X509 where
  issuer := unitName
  subject := []
  subject_data := by simp

def reportedOfUnit (pcIssuerName : Memory) : Option (List UInt8) :=
  (getSslServiceCertIssuerName asciiHelpers (some [unitCertificate])
    ⟨pcIssuerName, pcIssuerName⟩ 256).bind fun b => cString b.issuerName 256

/-- The unit is reported from an empty buffer, and what the buffer held from any other. -/
theorem stale_issuer_reported :
    reportedOfUnit (putText ones []) = some [67, 65] ∧
      reportedOfUnit staleBuffer = some [111, 108, 100] ∧
      ¬ ReportsIssuer asciiHelpers [unitCertificate] (issuerText asciiHelpers unitName) 256 := by
  refine ⟨rfl, rfl, fun hreports => ?_⟩
  obtain ⟨b, hb, htext⟩ := hreports ⟨staleBuffer, staleBuffer⟩
  have hold : reportedOfUnit staleBuffer = some (issuerText asciiHelpers unitName) := by
    rw [reportedOfUnit, hb]
    exact htext
  exact absurd hold (by decide)

end IssuerName
