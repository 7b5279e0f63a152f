import MakeDownFile.NameLists

/-! # The SKF library of the token program

GetSKFAPI loads the library and keeps its table of functions; the functions themselves are
calls whose replies are up to the token. -/
namespace SkfApi

open CallPrograms
open CallPrograms.Prog
open NameLists

/-- What a token lists and opens. The handles passed to it may be NULL. -/
inductive Level where
  | device
  | application (hDev : Option ℕ)
  | container (hApp : Option ℕ)
  deriving DecidableEq

/-- Calls on the system and on the token. Listing gets the room for the list, unless it only
asks for its length, and `unsetCount` reads a count that nothing has written. -/
inductive Call where
  | loadLibraryEx
  | vosMalloc
  | getProcAddress (name : String)
  | freeLibrary
  | strdup (text : String)
  | malloc (size : ℕ)
  | unsetCount
  | enum (level : Level) (room : Option ℕ)
  | openEntry (level : Level) (name : Name)
  | closeContainer (hContainer : ℕ)
  | closeApplication (hApp : Option ℕ)
  | disConnectDev (hDev : Option ℕ)
  | verifyPin (hApp : Option ℕ) (pin : String)
  | createContainer (hApp : Option ℕ) (name : Name)
  | getContainerType (hContainer : ℕ)
  | genRsaKeyPair (hContainer : ℕ) (bits : ℕ)
  | genEccKeyPair (hContainer : ℕ) (algId : String)
  | exportPublicKey (hContainer : ℕ) (signFlag : Bool)
  | exportCertificate (hContainer : ℕ) (signFlag : Bool) (room : Option ℕ)
  | digestInit (hDev : Option ℕ) (algId : String)
  | digest (hHash : ℕ)
  | rsaSignData (hContainer : ℕ)
  | rsaVerify (hDev : Option ℕ)
  | eccSignData (hContainer : ℕ)
  | eccVerify (hDev : Option ℕ)
  | eccExportSessionKey (hContainer : ℕ) (algId : String)
  | encryptInit (hKey : ℕ)
  | encryptUpdate (hKey : ℕ)
  | encryptFinal (hKey : ℕ)
  | importEccKeyPair (hContainer : ℕ)
  | importSessionKey (hContainer : ℕ) (algId : String)
  | d2iX509 (length : ℕ)
  | writeCertificateToPemFile (filename : String)
  deriving DecidableEq

/-- A list as long as it is reported, and written into the room passed for it. -/
structure ListReply where
  rv : UInt32
  list : List UInt8

structure HandleReply where
  rv : UInt32
  handle : ℕ

structure LengthReply where
  rv : UInt32
  length : ℕ

abbrev Reply : Call → Type
  | .loadLibraryEx | .vosMalloc | .getProcAddress _ | .strdup _ | .malloc _ => Bool
  | .d2iX509 _ | .writeCertificateToPemFile _ => Bool
  | .freeLibrary => Unit
  | .unsetCount => ℕ
  | .enum _ _ => ListReply
  | .openEntry _ _ | .createContainer _ _ | .digestInit _ _ => HandleReply
  | .eccExportSessionKey _ _ | .importSessionKey _ _ => HandleReply
  | .exportCertificate _ _ _ => LengthReply
  | _ => UInt32

abbrev Skf := Prog Call Reply

abbrev SkfEvent := Event Reply

def procNames : List String :=
  ["SKF_VerifyPIN", "SKF_GetPINInfo", "SKF_UnblockPIN", "SKF_ClearSecureState",
   "SKF_CreateApplication", "SKF_EnumApplication", "SKF_DeleteApplication", "SKF_OpenApplication",
   "SKF_CloseApplication", "SKF_CreateFile", "SKF_DeleteFile", "SKF_EnumFiles", "SKF_GetFileInfo",
   "SKF_ReadFile", "SKF_WriteFile", "SKF_GenRandom", "SKF_GenExtRSAKey", "SKF_GenRSAKeyPair",
   "SKF_ImportRSAKeyPair", "SKF_RSASignData", "SKF_RSAVerify", "SKF_RSAExportSessionKey",
   "SKF_ExtRSAPubKeyOperation", "SKF_ExtRSAPriKeyOperation", "SKF_GenECCKeyPair",
   "SKF_ImportECCKeyPair", "SKF_ECCSignData", "SKF_ECCVerify", "SKF_ECCExportSessionKey",
   "SKF_ExtECCEncrypt", "SKF_ExtECCDecrypt", "SKF_ExtECCSign", "SKF_ExtECCVerify",
   "SKF_ExportPublicKey", "SKF_ImportSessionKey", "SKF_SetSymmKey", "SKF_EncryptInit",
   "SKF_Encrypt", "SKF_EncryptUpdate", "SKF_EncryptFinal", "SKF_DecryptInit", "SKF_Decrypt",
   "SKF_DecryptUpdate", "SKF_DecryptFinal", "SKF_DigestInit", "SKF_Digest", "SKF_DigestUpdate",
   "SKF_DigestFinal", "SKF_MacInit", "SKF_Mac", "SKF_MacUpdate", "SKF_MacFinal",
   "SKF_CloseHandle", "SKF_CreateContainer", "SKF_DeleteContainer", "SKF_OpenContainer",
   "SKF_CloseContainer", "SKF_EnumContainer", "SKF_GetContainerType", "SKF_ImportCertificate",
   "SKF_ExportCertificate", "SKF_EnumDev", "SKF_ConnectDev", "SKF_DisConnectDev",
   "SKF_WaitForDevEvent", "SKF_CancelWaitForDevEvent"]

def fail (message : String) : Skf (Bool × Option String) :=
  .call (.strdup message) fun (copied : Bool) =>
    ret (false, if copied then some message else none)

def getProcs : List String → Skf (Bool × Option String)
  | [] => ret (true, none)
  | name :: rest => .call (.getProcAddress name) fun (found : Bool) =>
    if found then getProcs rest
    else do
      let r ← fail ("Failed to get procedure address for " ++ name)
      .call .freeLibrary fun _ => ret r

/-- Whether the table is there afterwards, and the error message. A message that cannot be
copied is lost. -/
def getSkfApi (api : Bool) : Skf (Bool × Option String) :=
  if api then ret (true, none)
  else .call .loadLibraryEx fun (hModule : Bool) =>
    if ¬ hModule then fail "Failed to load library."
    else .call .vosMalloc fun (table : Bool) =>
      if ¬ table then do
        let r ← fail "Failed to allocate memory for SKF_API"
        .call .freeLibrary fun _ => ret r
      else getProcs procNames

/-- How every function of the program starts: an error message makes it return `failed`, and
otherwise the table is used. -/
def useApi {α : Type} (api : Bool) (failed : α) (body : Skf α) : Skf (Bool × α) := do
  let r ← getSkfApi api
  match r with
  | (api, some _) => pure (api, failed)
  | (false, none) => fault
  | (true, none) => do
    let a ← body
    pure (true, a)

def LoadCall : Call → Prop
  | .loadLibraryEx | .vosMalloc | .getProcAddress _ | .freeLibrary | .strdup _ => True
  | _ => False

/-- Load calls that neither set a message nor look anything up. -/
def Neutral : Call → Prop
  | .loadLibraryEx | .vosMalloc | .freeLibrary => True
  | _ => False

def ErrorMessage (t : List SkfEvent) : Prop := ∃ m, (⟨.strdup m, true⟩ : SkfEvent) ∈ t

def HasProc (t : List SkfEvent) (name : String) : Prop :=
  (⟨.getProcAddress name, true⟩ : SkfEvent) ∈ t

def LibraryLoads (t : List SkfEvent) : Prop := ∀ name ∈ procNames, HasProc t name

theorem errorMessage_append {t u : List SkfEvent} :
    ErrorMessage (t ++ u) ↔ ErrorMessage t ∨ ErrorMessage u := by
  simp only [ErrorMessage, List.mem_append, exists_or]

/-- What one attempt to load does: it finds all of `needed`, or it fails before the last of
them, with a message unless that could not be copied. -/
structure LoadSpec (needed : List String) (t : List SkfEvent)
    (o : Option (Bool × Option String)) : Prop where
  calls : ∀ e ∈ t, LoadCall e.1
  ends : o ≠ none
  loaded : ∀ m, o = some (true, m) → m = none ∧ ¬ ErrorMessage t ∧ ∀ n ∈ needed, HasProc t n
  failed : ∀ m, o = some (false, m) → (m.isSome ↔ ErrorMessage t) ∧
    ∀ last, needed.getLast? = some last → ¬ HasProc t last

/-- How a function that uses the table runs: it returns with a message, it faults because the
message was lost, or it does its work, after an attempt to load only where there was no table. -/
inductive UsesApi {α : Type} (api : Bool) (failed : α) (P : List SkfEvent → Option α → Prop) :
    List SkfEvent → Option (Bool × α) → Prop where
  | message {t} (hapi : api = false) (hcalls : ∀ e ∈ t, LoadCall e.1) (hmessage : ErrorMessage t)
      (hload : ¬ HasProc t "SKF_CancelWaitForDevEvent") :
      UsesApi api failed P t (some (false, failed))
  | lost {t} (hapi : api = false) (hcalls : ∀ e ∈ t, LoadCall e.1) (hno : ¬ ErrorMessage t)
      (hload : ¬ HasProc t "SKF_CancelWaitForDevEvent") : UsesApi api failed P t none
  | used {t u o} (hcalls : ∀ e ∈ t, LoadCall e.1) (hno : ¬ ErrorMessage t)
      (hkept : api = true → t = []) (hload : api = false → LibraryLoads t) (hbody : P u o) :
      UsesApi api failed P (t ++ u) (o.map (Prod.mk true))

section Load

variable {needed : List String} {t : List SkfEvent}

theorem fail_spec (hcalls : ∀ e ∈ t, LoadCall e.1) (hno : ¬ ErrorMessage t)
    (hlast : ∀ last, needed.getLast? = some last → ¬ HasProc t last) (message : String) :
    Holds (fun u o => LoadSpec needed (t ++ u) o) (fail message) := by
  intro copied
  have hprocs : ∀ n, HasProc (t ++ [⟨.strdup message, copied⟩]) n ↔ HasProc t n := by
    intro n
    simp [HasProc]
  constructor
  · intro e he
    rcases List.mem_append.mp he with he | he
    · exact hcalls e he
    · rw [List.mem_singleton.mp he]
      trivial
  · simp
  · simp
  · rintro m ⟨⟩
    refine ⟨?_, fun last h => by rw [hprocs]; exact hlast last h⟩
    rw [errorMessage_append, or_iff_right hno]
    cases copied <;> simp [ErrorMessage]

theorem hasProc_append {t u : List SkfEvent} {name : String} :
    HasProc (t ++ u) name ↔ HasProc t name ∨ HasProc u name := List.mem_append

theorem neutral_silent (h : ∀ e ∈ t, Neutral e.1) : ¬ ErrorMessage t := by
  rintro ⟨m, hm⟩
  exact h _ hm

theorem neutral_no_proc (h : ∀ e ∈ t, Neutral e.1) (name : String) : ¬ HasProc t name :=
  fun hm => h _ hm

theorem Neutral.load {c : Call} (h : Neutral c) : LoadCall c := by
  cases c <;> trivial

/-- Neutral calls around an attempt change nothing about it. -/
theorem LoadSpec.surround {o : Option (Bool × Option String)} (h : LoadSpec needed t o)
    (pre post : List SkfEvent) (hpre : ∀ e ∈ pre, Neutral e.1) (hpost : ∀ e ∈ post, Neutral e.1) :
    LoadSpec needed (pre ++ t ++ post) o := by
  have hmessage : ErrorMessage (pre ++ t ++ post) ↔ ErrorMessage t := by
    simp only [errorMessage_append, neutral_silent hpre, neutral_silent hpost, false_or, or_false]
  have hprocs : ∀ n, HasProc (pre ++ t ++ post) n ↔ HasProc t n := by
    intro n
    simp only [hasProc_append, neutral_no_proc hpre n, neutral_no_proc hpost n, false_or, or_false]
  refine ⟨fun e he => ?_, h.ends, fun m hm => ?_, fun m hm => ?_⟩
  · simp only [List.mem_append] at he
    rcases he with (he | he) | he
    · exact (hpre e he).load
    · exact h.calls e he
    · exact (hpost e he).load
  · obtain ⟨hnone, hno, hall⟩ := h.loaded m hm
    exact ⟨hnone, by rwa [hmessage], fun n hn => (hprocs n).mpr (hall n hn)⟩
  · obtain ⟨hiff, hlast⟩ := h.failed m hm
    exact ⟨by rwa [hmessage], fun last hl => by rw [hprocs]; exact hlast last hl⟩

theorem fail_release_spec (hcalls : ∀ e ∈ t, LoadCall e.1) (hno : ¬ ErrorMessage t)
    (hlast : ∀ last, needed.getLast? = some last → ¬ HasProc t last) (message : String) :
    Holds (fun u o => LoadSpec needed (t ++ u) o)
      (fail message >>= fun r => .call .freeLibrary fun _ => ret r) := by
  apply holds_bind (fail_spec hcalls hno hlast message)
  · exact fun u hu => hu
  · intro u r hu _
    have hend := hu.surround [] [⟨.freeLibrary, ()⟩] (by simp) (by simp [Neutral])
    rwa [List.nil_append, List.append_assoc] at hend

/-- The last name stands there once, so finding it is finding all of them. -/
theorem get_procs_spec (names : List String) (hne : names ≠ [])
    (honce : ∀ last, names.getLast? = some last → last ∉ names.dropLast) :
    Holds (LoadSpec names) (getProcs names) := by
  induction names with
  | nil => exact absurd rfl hne
  | cons name rest ih =>
    intro found
    cases found with
    | false =>
      exact fail_release_spec (t := [⟨.getProcAddress name, false⟩]) (by simp [LoadCall])
        (by simp [ErrorMessage]) (by simp [HasProc]) _
    | true =>
      have hstart : ∀ t : List SkfEvent, ErrorMessage (⟨.getProcAddress name, true⟩ :: t) ↔
          ErrorMessage t := by
        simp [ErrorMessage]
      by_cases hrest : rest = []
      · subst hrest
        exact ⟨by simp [LoadCall], by simp, by simp [ErrorMessage, HasProc], by simp⟩
      rw [List.getLast?_cons_of_ne_nil hrest, List.dropLast_cons_of_ne_nil hrest] at honce
      have honce' : ∀ last, rest.getLast? = some last → last ≠ name ∧ last ∉ rest.dropLast :=
        fun last hl => List.ne_and_not_mem_of_not_mem_cons (honce last hl)
      refine holds_mono (fun t o h => ?_) (ih hrest fun last hl => (honce' last hl).2)
      refine ⟨List.forall_mem_cons.mpr ⟨trivial, h.calls⟩, h.ends, fun m hm => ?_, fun m hm => ?_⟩
      · obtain ⟨hnone, hno, hall⟩ := h.loaded m hm
        refine ⟨hnone, by rwa [hstart], List.forall_mem_cons.mpr ⟨?_, fun n hn => ?_⟩⟩
        · exact List.mem_cons_self
        · exact List.mem_cons_of_mem _ (hall n hn)
      · obtain ⟨hiff, hlast⟩ := h.failed m hm
        refine ⟨by rwa [hstart], fun last hl hproc => ?_⟩
        rw [List.getLast?_cons_of_ne_nil hrest] at hl
        rcases List.mem_cons.mp hproc with heq | hproc
        · cases heq
          exact (honce' _ hl).1 rfl
        · exact hlast last hl hproc

theorem last_proc : procNames.getLast? = some "SKF_CancelWaitForDevEvent" := rfl

theorem last_proc_mem : "SKF_CancelWaitForDevEvent" ∈ procNames :=
  List.mem_of_getLast? last_proc

theorem last_proc_once : ∀ last, procNames.getLast? = some last → last ∉ procNames.dropLast := by
  rintro last ⟨⟩
  decide +kernel

/-- An attempt is made only where there is no table yet. -/
theorem get_skf_api_spec (api : Bool) :
    Holds (fun t o => (api = true → t = [] ∧ o = some (true, none)) ∧
      (api = false → LoadSpec procNames t o)) (getSkfApi api) := by
  cases api with
  | true => exact ⟨fun _ => ⟨rfl, rfl⟩, by simp⟩
  | false =>
    have hlast : ∀ t : List SkfEvent, (∀ e ∈ t, e.1 = .loadLibraryEx ∨ e.1 = .vosMalloc) →
        ∀ n, ¬ HasProc t n := by
      intro t ht n hn
      rcases ht _ hn with h | h <;> cases h
    refine holds_mono (fun t o h => ⟨by simp, fun _ => h⟩) ?_
    intro hModule
    cases hModule with
    | false =>
      exact fail_spec (t := [⟨.loadLibraryEx, false⟩]) (by simp [LoadCall])
        (by simp [ErrorMessage]) (fun n _ => hlast _ (by simp) n) _
    | true =>
      intro table
      cases table with
      | false =>
        exact fail_release_spec (t := [⟨.loadLibraryEx, true⟩, ⟨.vosMalloc, false⟩])
          (by simp [LoadCall]) (by simp [ErrorMessage]) (fun n _ => hlast _ (by simp) n) _
      | true =>
        refine holds_mono (fun t o h => ?_) (get_procs_spec procNames (by decide) last_proc_once)
        have hend := h.surround [⟨.loadLibraryEx, true⟩, ⟨.vosMalloc, true⟩] []
          (by simp [Neutral]) (by simp)
        rwa [List.append_nil] at hend

theorem use_api_spec {α : Type} {P : List SkfEvent → Option α → Prop} {body : Skf α}
    (api : Bool) (failed : α) (hbody : Holds P body) :
    Holds (UsesApi api failed P) (useApi api failed body) := by
  have hused : ∀ t : List SkfEvent, (∀ e ∈ t, LoadCall e.1) → ¬ ErrorMessage t →
      (api = true → t = []) → (api = false → LibraryLoads t) →
      Holds (fun u o => UsesApi api failed P (t ++ u) o) (body >>= fun a => ret (true, a)) := by
    intro t hcalls hno hkept hload
    apply holds_bind hbody
    · exact fun u hu => .used hcalls hno hkept hload hu
    · intro u a hu
      have hend : UsesApi api failed P (t ++ u) (some (true, a)) :=
        .used hcalls hno hkept hload hu
      rwa [← List.append_nil u] at hend
  apply holds_bind (get_skf_api_spec api)
  · rintro t ⟨hkept, hload⟩
    cases api with
    | true => exact absurd (hkept rfl).2 (by simp)
    | false => exact absurd rfl (hload rfl).ends
  · rintro t ⟨api', m⟩ ⟨hkept, hload⟩
    cases api with
    | true =>
      obtain ⟨rfl, h⟩ := hkept rfl
      cases h
      exact hused [] (by simp) (by simp [ErrorMessage]) (by simp) (by simp)
    | false =>
      have hspec := hload rfl
      cases api' with
      | true =>
        obtain ⟨rfl, hno, hall⟩ := hspec.loaded m rfl
        exact hused t hspec.calls hno (by simp) fun _ => hall
      | false =>
        obtain ⟨hiff, hno⟩ := hspec.failed m rfl
        cases m with
        | none =>
          have hsilent : ¬ ErrorMessage t := fun h => by cases hiff.mpr h
          apply holds_fault
          exact .lost rfl hspec.calls hsilent (hno _ last_proc)
        | some text =>
          apply holds_ret
          exact .message rfl hspec.calls (hiff.mp rfl) (hno _ last_proc)

end Load

end SkfApi
