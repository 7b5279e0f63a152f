import MakeDownFile.CallPrograms
import MakeDownFile.NameText

/-! # Printing an ASN.1 string in pieces

NETC_SSL_X509_ASN1_STRING_print byte by byte, with its staging buffer of 80 bytes and its
index. A store or a read outside of the buffer is a fault. -/
namespace NamePrint

open CallPrograms
open CallPrograms.Prog
open NameText (Asn1String asn1StringPrint asn1_string_print_eq)

/-- acbuf and IPos. -/
structure Staging where
  acbuf : List UInt8
  iPos : ℕ
  deriving DecidableEq, Repr

/-- The calls are BIO_write with the bytes it is given. It appends all of them, or returns a
value that is not positive. -/
abbrev Bio (α : Type) := Prog (List UInt8) (fun _ => ℤ) α

abbrev Write := Event fun _ : List UInt8 => ℤ

def appended (t : List Write) : List UInt8 :=
  (t.map fun e => if 0 < e.2 then e.1 else []).flatten

/-- acbuf[IPos] = b; IPos++ -/
def store (s : Staging) (b : UInt8) : Bio Staging :=
  if s.iPos < s.acbuf.length then .ret ⟨s.acbuf.set s.iPos b, s.iPos + 1⟩ else .fault

/-- BIO_write(pbio, acbuf, IPos), with the return on failure. -/
def bioWrite (s : Staging) : Bio (Except ℤ Staging) :=
  if s.iPos ≤ s.acbuf.length then do
    let r ← .call (s.acbuf.take s.iPos) .ret
    if r ≤ 0 then .ret (.error (-1)) else .ret (.ok { s with iPos := 0 })
  else .fault

def printNext (b : UInt8) (s : Staging) : Bio (Except ℤ Staging) := do
  let s ← store s b
  if 80 ≤ s.iPos then bioWrite s else .ret (.ok s)

def result : Except ℤ Staging → ℤ
  | .ok _ => 0
  | .error r => r

def sslX509Asn1StringPrint (str : Option Asn1String) : Bio ℤ :=
  match str with
  | none => .ret (-1)
  | some str =>
    ((iterate printNext str.data ⟨List.replicate 80 0, 0⟩).proceed fun s =>
      if 0 < s.iPos then bioWrite s else .ret (.ok s)).bind fun r => .ret (result r)

def Sized (e : Write) : Prop := 1 ≤ e.1.length ∧ e.1.length ≤ 80

/-- Full buffers of the bytes `bs` have been written, all of them with success, and the rest is
staged. -/
structure Staged (bs : List UInt8) (t : List Write) (s : Staging) : Prop where
  room : s.acbuf.length = 80
  index : s.iPos ≤ 80
  whole : 80 * t.length + s.iPos = bs.length
  bytes : appended t ++ s.acbuf.take s.iPos = bs
  sized : ∀ e ∈ t, Sized e
  answered : ∀ e ∈ t, 0 < e.2

structure Written (bs : List UInt8) (t : List Write) : Prop where
  bytes : appended t = bs
  count : t.length = (bs.length + 79) / 80
  sized : ∀ e ∈ t, Sized e
  answered : ∀ e ∈ t, 0 < e.2

/-- One of the writes that `n` bytes need has failed. -/
structure Refused (n : ℕ) (t : List Write) : Prop where
  count : t.length ≤ (n + 79) / 80
  sized : ∀ e ∈ t, Sized e
  failed : ∃ e ∈ t, e.2 ≤ 0

def LeftEarly (n : ℕ) (t : List Write) : Option ℤ → Prop
  | some r => r = -1 ∧ Refused n t
  | none => False

section Steps

variable {bs : List UInt8} {t u : List Write} {s : Staging} {b : UInt8} {n : ℕ}

theorem appended_append : appended (t ++ u) = appended t ++ appended u := by
  simp [appended]

theorem appended_write {r : ℤ} (h : 0 < r) : appended [⟨bs, r⟩] = bs := by
  simp [appended, h]

theorem forall_write {P : Write → Prop} {e : Write} (h : ∀ e ∈ t, P e) (he : P e) :
    ∀ e' ∈ t ++ [e], P e' := by
  intro e' hmem
  rcases List.mem_append.mp hmem with hmem | hmem
  · exact h e' hmem
  · rw [List.mem_singleton.mp hmem]
    exact he

theorem staged_start : Staged [] [] ⟨List.replicate 80 0, 0⟩ :=
  ⟨rfl, Nat.zero_le _, rfl, rfl, List.forall_mem_nil _, List.forall_mem_nil _⟩

theorem staged_store (h : Staged bs t s) (hlt : s.iPos < 80) :
    Staged (bs ++ [b]) t ⟨s.acbuf.set s.iPos b, s.iPos + 1⟩ := by
  obtain ⟨hroom, hindex, hwhole, hbytes, hsized, hanswered⟩ := h
  refine ⟨?_, hlt, ?_, ?_, hsized, hanswered⟩
  · rw [List.length_set, hroom]
  · rw [List.length_append, List.length_singleton, ← hwhole]
    rfl
  · rw [← hroom] at hlt
    rw [← hbytes, List.append_assoc, List.take_add_one, List.take_set_of_le (Nat.le_refl _),
      List.getElem?_set_self hlt]
    rfl

theorem written_of_staged (h : Staged bs t s) (hzero : s.iPos = 0) : Written bs t := by
  obtain ⟨hroom, hindex, hwhole, hbytes, hsized, hanswered⟩ := h
  refine ⟨?_, by omega, hsized, hanswered⟩
  rw [← hbytes, hzero, List.take_zero, List.append_nil]

theorem bio_write_spec (h : Staged bs t s) (hpos : 0 < s.iPos) (hn : bs.length ≤ n) :
    Holds (fun u o => Ends (fun t' s' => Written bs t' ∧ s' = { s with iPos := 0 }) (LeftEarly n)
      (t ++ u) o) (bioWrite s) := by
  obtain ⟨hroom, hindex, hwhole, hbytes, hsized, hanswered⟩ := h
  have hlen : (s.acbuf.take s.iPos).length = s.iPos := by
    rw [List.length_take, hroom, Nat.min_eq_left hindex]
  have hsize : ∀ r, Sized ⟨s.acbuf.take s.iPos, r⟩ := by
    intro r
    rw [Sized, hlen]
    exact ⟨hpos, hindex⟩
  rw [bioWrite, if_pos (by omega)]
  apply holds_then
  intro r
  by_cases hfail : r ≤ 0
  · rw [if_pos hfail]
    have hlast : ⟨s.acbuf.take s.iPos, r⟩ ∈ t ++ [(⟨s.acbuf.take s.iPos, r⟩ : Write)] :=
      List.mem_append_right t (List.mem_singleton_self _)
    refine ⟨rfl, ?_, forall_write hsized (hsize r), _, hlast, hfail⟩
    rw [List.length_append, List.length_singleton]
    omega
  · rw [if_neg hfail]
    have hok : 0 < r := Int.not_le.mp hfail
    refine ⟨⟨?_, ?_, forall_write hsized (hsize r), forall_write hanswered hok⟩, rfl⟩
    · rw [appended_append, appended_write hok, hbytes]
    · rw [List.length_append, List.length_singleton]
      omega

theorem print_next_eq (hroom : s.acbuf.length = 80) (hlt : s.iPos < 80) :
    printNext b s =
      if 80 ≤ s.iPos + 1 then bioWrite ⟨s.acbuf.set s.iPos b, s.iPos + 1⟩
      else .ret (.ok ⟨s.acbuf.set s.iPos b, s.iPos + 1⟩) := by
  rw [printNext, store, if_pos (by rw [hroom]; exact hlt)]
  rfl

theorem staged_of_written (h : Written bs t) (hroom : s.acbuf.length = 80) (hzero : s.iPos = 0)
    (hfull : 80 ∣ bs.length) : Staged bs t s := by
  have hcount := h.count
  refine ⟨hroom, by omega, by omega, ?_, h.sized, h.answered⟩
  rw [h.bytes, hzero, List.take_zero, List.append_nil]

theorem print_next_spec (h : Staged bs t s) (hlt : s.iPos < 80) (hn : bs.length < n) :
    Holds (fun u o => Ends (fun t' s' => Staged (bs ++ [b]) t' s' ∧ s'.iPos < 80) (LeftEarly n)
      (t ++ u) o) (printNext b s) := by
  have hstaged : Staged (bs ++ [b]) t ⟨s.acbuf.set s.iPos b, s.iPos + 1⟩ := staged_store h hlt
  rw [print_next_eq h.room hlt]
  by_cases hfull : 80 ≤ s.iPos + 1
  · rw [if_pos hfull]
    have hlen : (bs ++ [b]).length ≤ n := by
      rw [List.length_append, List.length_singleton]
      exact hn
    refine holds_mono (fun u o hu => ends_mono (fun t' s' hw => ?_) hu)
      (bio_write_spec hstaged (Nat.succ_pos s.iPos) hlen)
    obtain ⟨hwritten, rfl⟩ := hw
    have hwhole := hstaged.whole
    simp only at hwhole
    exact ⟨staged_of_written hwritten hstaged.room rfl (by omega), Nat.succ_pos 79⟩
  · rw [if_neg hfull]
    exact holds_ret ⟨hstaged, Nat.not_le.mp hfull⟩

/-- The bytes that the loop has staged and those that it has still to take are the data. -/
def Going (data bs : List UInt8) (t : List Write) (s : Staging) : Prop :=
  ∃ front, front ++ bs = data ∧ Staged front t s ∧ s.iPos < 80

theorem loop_spec (data : List UInt8) :
    Holds (Ends (fun t s => Staged data t s ∧ s.iPos < 80) (LeftEarly data.length))
      (iterate printNext data ⟨List.replicate 80 0, 0⟩) := by
  have hturn : ∀ b bs t s, Going data (b :: bs) t s →
      Holds (fun u o => Ends (Going data bs) (LeftEarly data.length) (t ++ u) o)
        (printNext b s) := by
    intro b bs t s ⟨front, hdata, hstaged, hlt⟩
    have hless : front.length < data.length := by
      rw [← hdata, List.length_append, List.length_cons]
      omega
    refine holds_mono (fun u o hu => ends_mono (fun t' s' hs => ?_) hu)
      (print_next_spec hstaged hlt hless)
    refine ⟨front ++ [b], ?_, hs⟩
    rw [List.append_assoc, List.singleton_append, hdata]
  have hstart : Going data data [] ⟨List.replicate 80 0, 0⟩ :=
    ⟨[], rfl, staged_start, Nat.succ_pos 79⟩
  refine holds_mono (fun t o ht => ends_mono (fun t s hs => ?_) ht) (holds_iterate hturn hstart)
  obtain ⟨front, hdata, hstaged⟩ := hs
  rw [List.append_nil] at hdata
  rwa [hdata] at hstaged

/-- What the loop has left in the buffer is written last. -/
theorem rest_spec {data : List UInt8} (h : Staged data t s) :
    Holds (fun u o => Ends (fun t _ => Written data t) (LeftEarly data.length) (t ++ u) o)
      (if 0 < s.iPos then bioWrite s else .ret (.ok s)) := by
  by_cases hpos : 0 < s.iPos
  · rw [if_pos hpos]
    exact holds_mono (fun u o hu => ends_mono (fun t s hs => hs.1) hu)
      (bio_write_spec h hpos (Nat.le_refl _))
  · rw [if_neg hpos]
    exact holds_ret (written_of_staged h (by omega))

theorem writes_spec (data : List UInt8) :
    Holds (Ends (fun t _ => Written data t) (LeftEarly data.length))
      ((iterate printNext data ⟨List.replicate 80 0, 0⟩).proceed fun s =>
        if 0 < s.iPos then bioWrite s else .ret (.ok s)) := by
  apply holds_proceed (loop_spec data)
  · exact fun t ht => ht
  · exact fun t e ht => ht
  · exact fun t s ht => rest_spec ht.1

end Steps

structure Printed (str : Option Asn1String) (t : List Write) (ret : ℤ) : Prop where
  sized : ∀ e ∈ t, Sized e
  ok : ret = 0 → ∃ s, str = some s ∧ Written s.data t
  failed : ret ≠ 0 → ret = -1 ∧ ∀ s, str = some s → Refused s.data.length t

/-- The call does not leave the buffer. -/
theorem print_spec (str : Option Asn1String) :
    Holds (fun t o => ∃ ret, o = some ret ∧ Printed str t ret) (sslX509Asn1StringPrint str) := by
  cases str with
  | none =>
    refine ⟨-1, rfl, List.forall_mem_nil _, fun h => absurd h (by decide), fun _ => ⟨rfl, ?_⟩⟩
    exact fun s h => nomatch h
  | some s =>
    apply holds_bind (writes_spec s.data)
    · exact fun t ht => absurd ht id
    · intro t r ht
      cases r with
      | ok st =>
        apply holds_ret (Q := fun t o => ∃ ret, o = some ret ∧ Printed (some s) t ret)
        exact ⟨0, rfl, ht.sized, fun _ => ⟨s, rfl, ht⟩, fun h => absurd rfl h⟩
      | error e =>
        obtain ⟨rfl, hrefused⟩ := ht
        apply holds_ret (Q := fun t o => ∃ ret, o = some ret ∧ Printed (some s) t ret)
        refine ⟨-1, rfl, hrefused.sized, fun h => absurd h (by decide), fun _ => ⟨rfl, ?_⟩⟩
        intro s' hs
        obtain rfl := Option.some.inj hs
        exact hrefused

/-- The call stays within its buffer, writes 1 to 80 bytes at a time, and where it returns 0
has appended every byte of the data once and in order. -/
theorem print_lossless (str : Option Asn1String) :
    Holds (fun t o => (∃ ret, o = some ret) ∧ (∀ e ∈ t, 1 ≤ e.1.length ∧ e.1.length ≤ 80) ∧
      (o = some 0 → ∃ s, str = some s ∧ appended t = s.data)) (sslX509Asn1StringPrint str) := by
  refine holds_mono (fun t o ht => ?_) (print_spec str)
  obtain ⟨ret, rfl, hprinted⟩ := ht
  refine ⟨⟨ret, rfl⟩, hprinted.sized, fun h => ?_⟩
  obtain ⟨s, hs, hwritten⟩ := hprinted.ok (Option.some.inj h)
  exact ⟨s, hs, hwritten.bytes⟩

def replies (bioWrite : ℕ → Bool) (hist : List Write) (_ : List UInt8) : ℤ :=
  if bioWrite hist.length then 1 else 0

theorem reply_positive {bioWrite : ℕ → Bool} {p : Bio ℤ} {k : ℕ} {e : Write}
    (h : (run (replies bioWrite) [] p).1[k]? = some e) : 0 < e.2 ↔ bioWrite k = true := by
  have hlen : ((run (replies bioWrite) [] p).1.take k).length = k := by
    have hlt := (List.getElem?_eq_some_iff.mp h).1
    rw [List.length_take]
    omega
  rw [run_reply h, replies, List.nil_append, hlen]
  by_cases hk : bioWrite k = true
  · simp [hk]
  · simp [hk]

/-- The print as the extraction of a name uses it is what this call appends. -/
theorem asn1_string_print_appended (bioWrite : ℕ → Bool) (s : Asn1String) :
    asn1StringPrint bioWrite s =
      if (run (replies bioWrite) [] (sslX509Asn1StringPrint (some s))).2 = some 0 then
        some (appended (run (replies bioWrite) [] (sslX509Asn1StringPrint (some s))).1)
      else none := by
  have hreply : ∀ {k : ℕ} {e : Write},
      (run (replies bioWrite) [] (sslX509Asn1StringPrint (some s))).1[k]? = some e →
      (0 < e.2 ↔ bioWrite k = true) := reply_positive
  obtain ⟨ret, hret, hprinted⟩ := holds_run (print_spec (some s)) (replies bioWrite) []
  generalize run (replies bioWrite) [] (sslX509Asn1StringPrint (some s)) = r at *
  rw [asn1_string_print_eq, hret]
  by_cases hzero : ret = 0
  · obtain ⟨s', hs, hwritten⟩ := hprinted.ok hzero
    obtain rfl := Option.some.inj hs
    have hall : ∀ k < (s.data.length + 79) / 80, bioWrite k = true := by
      intro k hk
      rw [← hwritten.count] at hk
      have hget : r.1[k]? = some r.1[k] := List.getElem?_eq_getElem hk
      exact (hreply hget).mp (hwritten.answered _ (List.getElem_mem hk))
    rw [if_pos hall, if_pos (congrArg some hzero), hwritten.bytes]
  · obtain ⟨-, hrefused⟩ := hprinted.failed hzero
    obtain ⟨e, he, hneg⟩ := (hrefused s rfl).failed
    obtain ⟨k, hk, rfl⟩ := List.getElem_of_mem he
    rw [if_neg, if_neg fun h => hzero (Option.some.inj h)]
    intro hall
    have hcount := (hrefused s rfl).count
    have hpos := (hreply (List.getElem?_eq_getElem hk)).mpr (hall k (by omega))
    exact absurd hpos (Int.not_lt.mpr hneg)

end NamePrint
