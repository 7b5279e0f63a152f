import MakeDownFile.SortedStacks

/-! # The certificates of a CA store

A certificate is left out if an object of the store compares equal to it. The store compares by
name, so a renewed certificate is left out as well. -/
namespace CaStore

open SortedStacks

inductive X509Object (Cert Crl : Type) where
  | x509 (c : Cert)
  | crl (c : Crl)
  deriving DecidableEq, Repr

variable {Cert Crl : Type}

/-- What a call returns, `none` where it runs off its end, and the objects of the store. -/
structure Added (Cert Crl : Type) where
  ret : Option ℤ
  objs : List (X509Object Cert Crl)

/-- Cert_SSL_AddCACert with what GMold_PEM_read_bio_X509 reads of a file. -/
def certSslAddCACert (k : StackCalls (X509Object Cert Crl)) (objs : List (X509Object Cert Crl))
    (file : Option Cert) : Added Cert Crl :=
  match file with
  | none => ⟨some 0, objs⟩
  | some pX509Cert =>
    let pstObj := X509Object.x509 pX509Cert
    if k.find objs pstObj ≠ -1 then ⟨some (-1), objs⟩
    else ⟨none, k.sort (k.push objs pstObj)⟩

def addCACerts (k : StackCalls (X509Object Cert Crl)) (objs : List (X509Object Cert Crl))
    (files : List (Option Cert)) : List (X509Object Cert Crl) :=
  files.foldl (fun objs file => (certSslAddCACert k objs file).objs) objs

def caCertFile : String := "../gm/ca/rca.crt"
def caCertFile2 : String := "../gm/ca/oca.crt"

def createSslConectStore (k : StackCalls (X509Object Cert Crl)) (read : String → Option Cert)
    (flag : ℤ) (objs : List (X509Object Cert Crl)) : List (X509Object Cert Crl) :=
  if flag ≠ 0 then addCACerts k objs [read caCertFile2, read caCertFile] else objs

def readObjects (files : List (Option Cert)) : List (X509Object Cert Crl) :=
  files.filterMap fun file => file.map .x509

def HoldsExactly (objs : List (X509Object Cert Crl)) (files : List (Option Cert))
    (result : List (X509Object Cert Crl)) : Prop :=
  ∀ x, x ∈ result ↔ x ∈ objs ∨ x ∈ readObjects files

/-- The object is read, and none before it in the store or in a file compares equal. -/
def ReadFirst (cmp : X509Object Cert Crl → X509Object Cert Crl → Ordering)
    (objs : List (X509Object Cert Crl)) (files : List (Option Cert))
    (x : X509Object Cert Crl) : Prop :=
  ∃ before behind, readObjects files = before ++ x :: behind ∧
    ¬ Represented cmp objs x ∧ ¬ Represented cmp before x

def SameCertificates (files files' : List (Option Cert)) : Prop :=
  ∀ c, some c ∈ files ↔ some c ∈ files'

/-- Objects of the store and of the files compare equal only if they are. -/
def Separates (cmp : X509Object Cert Crl → X509Object Cert Crl → Ordering)
    (objs : List (X509Object Cert Crl)) (files : List (Option Cert)) : Prop :=
  ∀ x ∈ objs ++ readObjects files, ∀ y ∈ objs ++ readObjects files, cmp x y = .eq → x = y

section Store

variable {cmp : X509Object Cert Crl → X509Object Cert Crl → Ordering}
  {k : StackCalls (X509Object Cert Crl)} {objs : List (X509Object Cert Crl)}
  {files files' : List (Option Cert)} {x : X509Object Cert Crl}

theorem add_readable (c : Cert) :
    (certSslAddCACert k objs (some c)).objs = insertNew k objs (.x509 c) := by
  simp only [certSslAddCACert, insertNew, apply_ite Added.objs]

theorem addCACerts_eq : addCACerts k objs files = insertAll k objs (readObjects files) := by
  induction files generalizing objs with
  | nil => rfl
  | cons file files ih =>
    cases file with
    | none => exact ih
    | some c =>
      show addCACerts k (certSslAddCACert k objs (some c)).objs files = _
      rw [ih, add_readable]
      rfl

theorem mem_readObjects : x ∈ (readObjects files : List (X509Object Cert Crl)) ↔
    ∃ c, some c ∈ files ∧ X509Object.x509 c = x := by
  simp only [readObjects, List.mem_filterMap, Option.map_eq_some_iff]
  constructor
  · rintro ⟨file, hfile, c, rfl, hc⟩
    exact ⟨c, hfile, hc⟩
  · rintro ⟨c, hfile, hc⟩
    exact ⟨some c, hfile, c, rfl, hc⟩

theorem mem_readObjects_congr (h : SameCertificates files files') :
    x ∈ (readObjects files : List (X509Object Cert Crl)) ↔ x ∈ readObjects files' := by
  rw [mem_readObjects, mem_readObjects]
  exact exists_congr fun c => and_congr_left fun _ => h c

theorem sorted_added [Std.TransCmp cmp] (hk : Documented cmp k) (hobjs : SortedSet cmp objs) :
    SortedSet cmp (addCACerts k objs files) := by
  rw [addCACerts_eq]
  exact sortedSet_insertAll hk hobjs

theorem sorted_store_of_conect [Std.TransCmp cmp] (hk : Documented cmp k)
    (hobjs : SortedSet cmp objs) (read : String → Option Cert) (flag : ℤ) :
    SortedSet cmp (createSslConectStore k read flag objs) := by
  unfold createSslConectStore
  split
  · exact sorted_added hk hobjs
  · exact hobjs

theorem mem_added [Std.TransCmp cmp] (hk : Documented cmp k) (hobjs : SortedSet cmp objs) :
    x ∈ addCACerts k objs files ↔ x ∈ objs ∨ ReadFirst cmp objs files x := by
  rw [addCACerts_eq]
  exact mem_insertAll hk hobjs

theorem represented_added [Std.TransCmp cmp] (hk : Documented cmp k)
    (hobjs : SortedSet cmp objs) :
    Represented cmp (addCACerts k objs files) x ↔
      Represented cmp objs x ∨ Represented cmp (readObjects files) x := by
  rw [addCACerts_eq]
  exact represented_insertAll hk hobjs

/-- Neither the order of the calls nor their repetition makes a difference to the comparison. -/
theorem agree_added [Std.TransCmp cmp] (hk : Documented cmp k) (hobjs : SortedSet cmp objs)
    (h : SameCertificates files files') :
    List.Forall₂ (fun a b => cmp a b = .eq) (addCACerts k objs files)
      (addCACerts k objs files') := by
  refine agree_of_represented (sorted_added hk hobjs) (sorted_added hk hobjs) fun x => ?_
  rw [represented_added hk hobjs, represented_added hk hobjs]
  apply or_congr_right
  exact exists_congr fun y => and_congr_left fun _ => mem_readObjects_congr h

theorem added_from [Std.TransCmp cmp] (hk : Documented cmp k) (hobjs : SortedSet cmp objs)
    (hx : x ∈ addCACerts k objs files) : x ∈ objs ++ readObjects files := by
  rw [List.mem_append]
  refine ((mem_added hk hobjs).mp hx).imp_right ?_
  rintro ⟨before, behind, heq, -⟩
  rw [heq]
  simp

theorem holds_exactly_of_separates [Std.TransCmp cmp] (hk : Documented cmp k)
    (hobjs : SortedSet cmp objs) (hsep : Separates cmp objs files) :
    HoldsExactly objs files (addCACerts k objs files) := by
  intro x
  rw [← List.mem_append]
  constructor
  · exact added_from hk hobjs
  · intro hx
    have hrep : Represented cmp (addCACerts k objs files) x := by
      rw [represented_added hk hobjs]
      exact (List.mem_append.mp hx).imp represented_of_mem represented_of_mem
    obtain ⟨y, hy, heq⟩ := hrep
    rwa [hsep y (added_from hk hobjs hy) x hx heq] at hy

theorem added_eq_of_separates [Std.TransCmp cmp] (hk : Documented cmp k)
    (hobjs : SortedSet cmp objs) (hsep : Separates cmp objs files)
    (h : SameCertificates files files') : addCACerts k objs files = addCACerts k objs files' := by
  refine eq_of_agree (agree_added hk hobjs h) fun x hx y hy => ?_
  refine hsep x (added_from hk hobjs hx) y ?_
  refine List.mem_append.mpr ((List.mem_append.mp (added_from hk hobjs hy)).imp_right ?_)
  exact (mem_readObjects_congr h).mpr

end Store

/-- The store is sorted without a pair that compares equal, and has every object that came first
of those that compare equal. -/
structure KeepsSortedSet (cmp : X509Object Cert Crl → X509Object Cert Crl → Ordering)
    (objs : List (X509Object Cert Crl)) (files : List (Option Cert))
    (result : List (X509Object Cert Crl)) : Prop where
  sorted : SortedSet cmp result
  members : ∀ x, x ∈ result ↔ x ∈ objs ∨ ReadFirst cmp objs files x
  classes : ∀ x, Represented cmp result x ↔
    Represented cmp objs x ∨ Represented cmp (readObjects files) x

/-- Behind every call the store is a sorted set of what it held and what was read, up to the
comparison, for every order and repetition of the calls. -/
theorem ca_store_sorted_set (cmp : X509Object Cert Crl → X509Object Cert Crl → Ordering)
    [Std.TransCmp cmp] (k : StackCalls (X509Object Cert Crl)) (hk : Documented cmp k)
    (objs : List (X509Object Cert Crl)) (hobjs : SortedSet cmp objs)
    (files : List (Option Cert)) :
    KeepsSortedSet cmp objs files (addCACerts k objs files) ∧
      ∀ files', SameCertificates files files' →
        List.Forall₂ (fun a b => cmp a b = .eq) (addCACerts k objs files)
          (addCACerts k objs files') ∧
        (Separates cmp objs files → HoldsExactly objs files (addCACerts k objs files) ∧
          addCACerts k objs files = addCACerts k objs files') := by
  refine ⟨⟨sorted_added hk hobjs, fun x => mem_added hk hobjs,
    fun x => represented_added hk hobjs⟩, fun files' h => ⟨agree_added hk hobjs h, ?_⟩⟩
  intro hsep
  exact ⟨holds_exactly_of_separates hk hobjs hsep, added_eq_of_separates hk hobjs hsep h⟩

structure Certificate where
  subject : ℕ
  serial : ℕ
  deriving DecidableEq, Repr

/-- The type of an object and the name that it is compared by, a CRL by its issuer. -/
def comparedBy : X509Object Certificate ℕ → List ℕ
  | .x509 c => [1, c.subject]
  | .crl issuer => [2, issuer]

/-- Objects are compared by their types and names, as those of an X509_STORE are. -/
def nameCmp (a b : X509Object Certificate ℕ) : Ordering := compare (comparedBy a) (comparedBy b)

instance : Std.TransCmp nameCmp := inferInstanceAs (Std.TransCmp (compareOn comparedBy))

theorem ca_store_sorted_sample :
    addCACerts (linearCalls nameCmp) [.crl 7] [some ⟨5, 0⟩, none, some ⟨3, 0⟩, some ⟨5, 0⟩] =
      addCACerts (linearCalls nameCmp) [.crl 7] [some ⟨3, 0⟩, some ⟨5, 0⟩] := by
  refine ((ca_store_sorted_set nameCmp (linearCalls nameCmp) documented_linearCalls [.crl 7]
    (List.pairwise_singleton _ _) _).2 _ fun c => ?_).2 ?_ |>.2
  · simp
    tauto
  · unfold Separates
    decide

/-- A renewed certificate is read and not added, and which of the two is depends on their
order. -/
theorem renewed_certificate_left_out :
    Documented nameCmp (linearCalls nameCmp) ∧ SortedSet nameCmp [] ∧
      addCACerts (linearCalls nameCmp) [] [some ⟨5, 0⟩, some ⟨5, 1⟩] = [.x509 ⟨5, 0⟩] ∧
      addCACerts (linearCalls nameCmp) [] [some ⟨5, 1⟩, some ⟨5, 0⟩] = [.x509 ⟨5, 1⟩] ∧
      ¬ HoldsExactly [] [some ⟨5, 0⟩, some ⟨5, 1⟩]
        (addCACerts (linearCalls nameCmp) [] [some ⟨5, 0⟩, some ⟨5, 1⟩]) := by
  refine ⟨documented_linearCalls, List.Pairwise.nil, rfl, rfl, fun hexact => ?_⟩
  have hmem := (hexact (.x509 ⟨5, 1⟩)).mpr (by decide)
  exact absurd hmem (by decide)

end CaStore
