import MakeDownFile.CallerMemory
import Mathlib.Data.Int.Notation
import Mathlib.Data.List.Induction

/-! # The text of an X509 name

The last entry with an NID is the one that counts. Its text is converted, if its type says so,
and stored in the buffer of the caller. -/
namespace NameText

open CallerMemory

def nidCommonName : ℤ := 13
def nidOrganizationalUnitName : ℤ := 18

def vAsn1Utf8String : ℤ := 12
def vAsn1PrintableString : ℤ := 19
def vAsn1BmpString : ℤ := 30

structure Asn1String where
  type : ℤ
  data : List UInt8
  deriving DecidableEq, Repr

/-- An entry with its NID and what X509_NAME_ENTRY_get_data returns. -/
structure X509NameEntry where
  nid : ℤ
  data : Option Asn1String
  deriving DecidableEq, Repr

abbrev X509Name := List X509NameEntry

/-- What the calls of the function bring. The converters return the bytes that they write, or
`none` for -1. -/
structure Helpers where
  bioNew : Bool
  bioWrite : ℕ → Bool
  mallocText : Bool
  mallocOut : Bool
  unicode2Gbk : List UInt8 → Option (List UInt8)
  utf8ToGbk : List UInt8 → Option (List UInt8)

/-- X509_NAME_get_index_by_NID. It also answers an int that is no NID with a negative value. -/
def x509NameGetIndexByNid (name : X509Name) (nid lastpos : ℤ) : ℤ :=
  match (name.drop (lastpos + 1).toNat).findIdx? fun e => e.nid = nid with
  | none => -1
  | some k => ((lastpos + 1).toNat + k : ℕ)

def x509NameGetEntry (name : X509Name) (loc : ℤ) : Option X509NameEntry :=
  if loc < 0 then none else name[loc.toNat]?

theorem get_index_next {name : X509Name} {nid lastpos : ℤ}
    (h : 0 ≤ x509NameGetIndexByNid name nid lastpos) :
    ∃ k, (name.drop (lastpos + 1).toNat).findIdx? (fun e => e.nid = nid) = some k ∧
      x509NameGetIndexByNid name nid lastpos = ((lastpos + 1).toNat + k : ℕ) := by
  unfold x509NameGetIndexByNid at h ⊢
  cases hfind : (name.drop (lastpos + 1).toNat).findIdx? fun e => decide (e.nid = nid) with
  | none => simp [hfind] at h
  | some k => exact ⟨k, rfl, rfl⟩

theorem get_index_lt {name : X509Name} {nid lastpos : ℤ}
    (h : 0 ≤ x509NameGetIndexByNid name nid lastpos) :
    name.length - (x509NameGetIndexByNid name nid lastpos + 1).toNat <
      name.length - (lastpos + 1).toNat := by
  obtain ⟨k, hfind, heq⟩ := get_index_next h
  obtain ⟨hlt, -⟩ := List.findIdx?_eq_some_iff_getElem.mp hfind
  rw [List.length_drop] at hlt
  omega

@[semireducible]
def searchLast (name : X509Name) (nid iCurrentIndex : ℤ) : ℤ :=
  if _h : 0 ≤ x509NameGetIndexByNid name nid iCurrentIndex then
    searchLast name nid (x509NameGetIndexByNid name nid iCurrentIndex)
  else iCurrentIndex
termination_by name.length - (iCurrentIndex + 1).toNat
decreasing_by exact get_index_lt _h

/-- What NETC_SSL_X509_ASN1_STRING_print has in its array, and the writes it has made. -/
structure Printing where
  acbuf : List UInt8
  written : List (List UInt8)

def flush (bioWrite : ℕ → Bool) (p : Printing) : Option Printing :=
  if bioWrite p.written.length then some ⟨[], p.written ++ [p.acbuf]⟩ else none

def printByte (bioWrite : ℕ → Bool) (p : Printing) (b : UInt8) : Option Printing :=
  let p := { p with acbuf := p.acbuf ++ [b] }
  if 80 ≤ p.acbuf.length then flush bioWrite p else some p

def flushRest (bioWrite : ℕ → Bool) (p : Printing) : Option Printing :=
  if 0 < p.acbuf.length then flush bioWrite p else some p

/-- NETC_SSL_X509_ASN1_STRING_print, with what is then in the BIO; `none` is -1. -/
def asn1StringPrint (bioWrite : ℕ → Bool) (s : Asn1String) : Option (List UInt8) := do
  let p ← s.data.foldlM (printByte bioWrite) ⟨[], []⟩
  let p ← flushRest bioWrite p
  return p.written.flatten

/-- NETC_ChangeEndianOrder: the bytes of every pair change places. -/
def changeEndianOrder : List UInt8 → List UInt8
  | a :: b :: rest => b :: a :: changeEndianOrder rest
  | rest => rest

def store (m : Memory) (n : ℕ) (t : List UInt8) : Memory :=
  if n ≤ t.length then fill m (n - 1) else putText m t

/-- What the switch over the types leaves: the buffer, and pucNidOutBuff with its ulOutLen
bytes. -/
structure Switched where
  buffer : Memory
  nidOut : Option (List UInt8)

/-- The switch over the types; `none` is a jump to the end. -/
def switchType (h : Helpers) (type : ℤ) (text : List UInt8) (m : Memory) (n : ℕ) :
    Option Switched :=
  if type = vAsn1BmpString then
    if h.mallocOut then
      if 0 < text.length then
        (h.unicode2Gbk (changeEndianOrder text)).map fun out => ⟨m, some out⟩
      else some ⟨m, some []⟩
    else none
  else if type = vAsn1Utf8String then
    if 0 < text.length then (h.utf8ToGbk text).map fun out => ⟨m, some out⟩
    else some ⟨m, none⟩
  else if type = vAsn1PrintableString then some ⟨store m n text, none⟩
  else some ⟨store m n text, none⟩

def storeConverted (s : Switched) (n : ℕ) : Memory :=
  match s.nidOut with
  | none => s.buffer
  | some out => if 0 < out.length then store s.buffer n out else s.buffer

def extractEntry (h : Helpers) (e : Option X509NameEntry) (m : Memory) (n : ℕ) :
    Option Memory :=
  if h.bioNew then do
    let s ← e.bind (·.data)
    let text ← asn1StringPrint h.bioWrite s
    if h.mallocText then
      let switched ← switchType h s.type text m n
      return storeConverted switched n
    else none
  else none

structure Extracted where
  ret : ℤ
  buffer : Memory

/-- NETC_SSL_X509ExtratTextByNID for a buffer that is not NULL. -/
def extratTextByNid (h : Helpers) (name : Option X509Name) (nid : ℤ) (m : Memory) (n : ℕ) :
    Extracted :=
  match name with
  | none => ⟨-1, m⟩
  | some name =>
    if n = 0 then ⟨-1, m⟩
    else
      let iCurrentIndex := searchLast name nid (-1)
      if 0 ≤ iCurrentIndex then
        match extractEntry h (x509NameGetEntry name iCurrentIndex) m n with
        | none => ⟨-1, m⟩
        | some m' => ⟨0, m'⟩
      else ⟨0, m⟩

/-- Of every whole pair the bytes have changed places. -/
theorem change_endian_order_pair {bs : List UInt8} {k : ℕ} (h : 2 * k + 1 < bs.length) :
    (changeEndianOrder bs)[2 * k]? = bs[2 * k + 1]? ∧
      (changeEndianOrder bs)[2 * k + 1]? = bs[2 * k]? := by
  induction bs using changeEndianOrder.induct generalizing k with
  | case1 a b rest ih =>
    cases k with
    | zero => exact ⟨rfl, rfl⟩
    | succ k =>
      rw [List.length_cons, List.length_cons] at h
      exact ih (show 2 * k + 1 < rest.length by omega)
  | case2 rest hshort =>
    have hodd : rest.length ≤ 1 := by
      by_contra hlong
      obtain ⟨a, b, tail, rfl⟩ : ∃ a b tail, rest = a :: b :: tail := by
        rcases rest with - | ⟨a, - | ⟨b, tail⟩⟩
        · simp at hlong
        · simp at hlong
        · exact ⟨a, b, tail, rfl⟩
      exact hshort a b tail rfl
    omega

example : changeEndianOrder [78, 45, 86, 253, 7] = [45, 78, 253, 86, 7] := rfl

section Search

variable {name : X509Name} {nid : ℤ}

def lastEntry (name : X509Name) (nid : ℤ) : Option X509NameEntry :=
  (name.filter fun e => e.nid = nid).getLast?

theorem filter_of_find {p : X509NameEntry → Bool} {k : ℕ}
    (h : name.findIdx? p = some k) :
    ∃ e, name[k]? = some e ∧ name.filter p = e :: (name.drop (k + 1)).filter p := by
  induction name generalizing k with
  | nil => simp at h
  | cons e name ih =>
    rw [List.findIdx?_cons] at h
    by_cases he : p e
    · obtain rfl : k = 0 := by simpa [he, eq_comm] using h
      exact ⟨e, rfl, by simp [he]⟩
    · simp only [he, Bool.false_eq_true, if_false, Option.map_eq_some_iff] at h
      obtain ⟨j, hj, rfl⟩ := h
      obtain ⟨e', hget, hfilter⟩ := ih hj
      refine ⟨e', by simpa using hget, ?_⟩
      rw [List.filter_cons_of_neg he, hfilter, List.drop_succ_cons]

/-- From a position on, the search ends at the last match behind it, or stays. -/
theorem searched_behind (cur : ℤ) :
    x509NameGetEntry name (searchLast name nid cur) =
      (lastEntry (name.drop (cur + 1).toNat) nid).or (x509NameGetEntry name cur) := by
  induction cur using searchLast.induct name nid with
  | case1 cur hfound ih =>
    obtain ⟨k, hfind, hnext⟩ := get_index_next hfound
    obtain ⟨e, hget, hfilter⟩ := filter_of_find hfind
    have hentry : x509NameGetEntry name (x509NameGetIndexByNid name nid cur) = some e := by
      have hge : ¬ x509NameGetIndexByNid name nid cur < 0 := by omega
      rw [x509NameGetEntry, if_neg hge, hnext, Int.toNat_natCast, ← List.getElem?_drop]
      exact hget
    have hdrop : name.drop (x509NameGetIndexByNid name nid cur + 1).toNat =
        (name.drop (cur + 1).toNat).drop (k + 1) := by
      rw [List.drop_drop, hnext]
      congr 1
    rw [searchLast, dif_pos hfound, ih, hentry, hdrop, lastEntry, lastEntry, hfilter,
      List.getLast?_cons]
    cases ((name.drop (cur + 1).toNat).drop (k + 1)).filter
      (fun e => decide (e.nid = nid)) |>.getLast? <;> rfl
  | case2 cur hnone =>
    have hempty : (name.drop (cur + 1).toNat).findIdx? (fun e => decide (e.nid = nid)) = none := by
      by_contra hsome
      obtain ⟨k, hk⟩ := Option.ne_none_iff_exists'.mp hsome
      exact hnone (by simp [x509NameGetIndexByNid, hk]; omega)
    have hfilter : (name.drop (cur + 1).toNat).filter (fun e => decide (e.nid = nid)) = [] := by
      rw [List.filter_eq_nil_iff]
      exact fun e he => by simpa using List.findIdx?_eq_none_iff.mp hempty e he
    rw [searchLast, dif_neg hnone, lastEntry, hfilter]
    rfl

theorem searched_entry :
    x509NameGetEntry name (searchLast name nid (-1)) = lastEntry name nid := by
  rw [searched_behind]
  simp [x509NameGetEntry]

theorem searched_some {e : X509NameEntry} (h : lastEntry name nid = some e) :
    0 ≤ searchLast name nid (-1) := by
  by_contra hneg
  have hentry : x509NameGetEntry name (searchLast name nid (-1)) = lastEntry name nid :=
    searched_entry
  rw [h, x509NameGetEntry, if_pos (Int.not_le.mp hneg)] at hentry
  exact absurd hentry (by simp)

theorem searched_none (h : lastEntry name nid = none) : ¬ 0 ≤ searchLast name nid (-1) := by
  rw [searchLast]
  by_cases hfound : 0 ≤ x509NameGetIndexByNid name nid (-1)
  · obtain ⟨k, hfind, -⟩ := get_index_next hfound
    obtain ⟨e, -, hfilter⟩ := filter_of_find hfind
    have hempty : name.filter (fun e => decide (e.nid = nid)) = [] :=
      List.getLast?_eq_none_iff.mp h
    have hdrop : (name.drop ((-1 : ℤ) + 1).toNat) = name := rfl
    rw [hdrop, hempty] at hfilter
    exact absurd hfilter (by simp)
  · rw [dif_neg hfound]
    decide

end Search

section Print

variable {bioWrite : ℕ → Bool} {bs : List UInt8} {p p' : Printing} {b : UInt8}

structure PrintedTo (bioWrite : ℕ → Bool) (bs : List UInt8) (p : Printing) : Prop where
  bytes : p.written.flatten ++ p.acbuf = bs
  writes : p.written.length = bs.length / 80
  rest : p.acbuf.length = bs.length % 80
  answered : ∀ k < p.written.length, bioWrite k = true

theorem flush_eq_some (h : flush bioWrite p = some p') :
    bioWrite p.written.length = true ∧ p' = ⟨[], p.written ++ [p.acbuf]⟩ := by
  unfold flush at h
  by_cases hw : bioWrite p.written.length = true
  · rw [if_pos hw] at h
    exact ⟨hw, (Option.some.inj h).symm⟩
  · simp [hw] at h

theorem flush_of_write (h : bioWrite p.written.length = true) :
    flush bioWrite p = some ⟨[], p.written ++ [p.acbuf]⟩ := if_pos h

theorem answered_flush (h : ∀ k < p.written.length, bioWrite k = true)
    (hw : bioWrite p.written.length = true) :
    ∀ k < (p.written ++ [p.acbuf]).length, bioWrite k = true := by
  intro k hk
  rw [List.length_append, List.length_singleton] at hk
  by_cases heq : k = p.written.length
  · rw [heq]
    exact hw
  · exact h k (by omega)

theorem printedTo_step (h : PrintedTo bioWrite bs p) (hstep : printByte bioWrite p b = some p') :
    PrintedTo bioWrite (bs ++ [b]) p' := by
  have hrest := h.rest
  have hwrites := h.writes
  unfold printByte at hstep
  by_cases hfull : 80 ≤ (p.acbuf ++ [b]).length
  · rw [if_pos hfull] at hstep
    obtain ⟨hw, rfl⟩ := flush_eq_some hstep
    rw [List.length_append, List.length_singleton] at hfull
    refine ⟨?_, ?_, ?_, answered_flush (p := { p with acbuf := p.acbuf ++ [b] }) h.answered hw⟩
    · simp [← h.bytes]
    · simp only [List.length_append, List.length_singleton]
      omega
    · simp only [List.length_append, List.length_singleton, List.length_nil]
      omega
  · rw [if_neg hfull] at hstep
    obtain rfl := Option.some.inj hstep
    rw [List.length_append, List.length_singleton] at hfull
    refine ⟨?_, ?_, ?_, h.answered⟩
    · simp [← h.bytes]
    · simp only [List.length_append, List.length_singleton]
      omega
    · simp only [List.length_append, List.length_singleton]
      omega

theorem printedTo_of_fold (h : bs.foldlM (printByte bioWrite) ⟨[], []⟩ = some p) :
    PrintedTo bioWrite bs p := by
  induction bs using List.reverseRecOn generalizing p with
  | nil =>
    obtain rfl := Option.some.inj h
    exact ⟨rfl, rfl, rfl, fun k hk => absurd hk (Nat.not_lt_zero k)⟩
  | append_singleton bs b ih =>
    rw [List.foldlM_append] at h
    obtain ⟨q, hq, hstep⟩ := Option.bind_eq_some_iff.mp h
    obtain ⟨p', hp', hpure⟩ := Option.bind_eq_some_iff.mp hstep
    obtain rfl := Option.some.inj hpure
    exact printedTo_step (ih hq) hp'

theorem fold_of_writes (h : ∀ k < bs.length / 80, bioWrite k = true) :
    ∃ p, bs.foldlM (printByte bioWrite) ⟨[], []⟩ = some p := by
  induction bs using List.reverseRecOn with
  | nil => exact ⟨_, rfl⟩
  | append_singleton bs b ih =>
    rw [List.length_append, List.length_singleton] at h
    obtain ⟨q, hq⟩ := ih fun k hk => h k (by omega)
    have hprinted := printedTo_of_fold hq
    have hrest := hprinted.rest
    have hwrites := hprinted.writes
    have hstep : ∃ p, printByte bioWrite q b = some p := by
      unfold printByte
      by_cases hfull : 80 ≤ (q.acbuf ++ [b]).length
      · rw [if_pos hfull]
        rw [List.length_append, List.length_singleton] at hfull
        exact ⟨_, flush_of_write (h _ (show q.written.length < _ by omega))⟩
      · rw [if_neg hfull]
        exact ⟨_, rfl⟩
    obtain ⟨p, hp⟩ := hstep
    refine ⟨p, ?_⟩
    rw [List.foldlM_append, hq]
    simp [hp]

/-- The print brings the data, if every write of at most 80 bytes does. -/
theorem asn1_string_print_eq (s : Asn1String) :
    asn1StringPrint bioWrite s =
      if ∀ k < (s.data.length + 79) / 80, bioWrite k = true then some s.data else none := by
  by_cases hall : ∀ k < (s.data.length + 79) / 80, bioWrite k = true
  · obtain ⟨p, hp⟩ : ∃ p, s.data.foldlM (printByte bioWrite) ⟨[], []⟩ = some p :=
      fold_of_writes fun k hk => hall k (by omega)
    have hprinted := printedTo_of_fold hp
    have hrest := hprinted.rest
    have hwrites := hprinted.writes
    rw [if_pos hall, asn1StringPrint, hp]
    by_cases hpos : 0 < p.acbuf.length
    · have hflush := flush_of_write (hall p.written.length (by omega))
      simp [flushRest, hpos, hflush, ← hprinted.bytes]
    · have hnil : p.acbuf = [] := List.length_eq_zero_iff.mp (by omega)
      simp [flushRest, hnil, ← hprinted.bytes]
  · rw [if_neg hall]
    by_contra hsome
    obtain ⟨bytes, hbytes⟩ := Option.ne_none_iff_exists'.mp hsome
    obtain ⟨p, hp, hrun⟩ := Option.bind_eq_some_iff.mp hbytes
    obtain ⟨q, hq, -⟩ := Option.bind_eq_some_iff.mp hrun
    have hprinted := printedTo_of_fold hp
    have hrest := hprinted.rest
    have hwrites := hprinted.writes
    apply hall
    by_cases hpos : 0 < p.acbuf.length
    · rw [flushRest, if_pos hpos] at hq
      obtain ⟨hw, -⟩ := flush_eq_some hq
      intro k hk
      by_cases heq : k = p.written.length
      · rw [heq]
        exact hw
      · exact hprinted.answered k (by omega)
    · exact fun k hk => hprinted.answered k (by omega)

end Print

end NameText
