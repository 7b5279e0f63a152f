import MakeDownFile.SkfTokenRuns

/-! # Containers in the key pair tests

RasKeyPairTest and KeyPairTest open their container or create it, and differ in what they do
when it can be neither opened nor is missing. -/
namespace SkfContainers

open CallPrograms
open CallPrograms.Prog
open NameLists
open SkfApi
open SkfEnumeration
open SkfTokenProgram
open SkfTokenRuns
open TextBuffers
open TraceRuns

def genRsaKeyPair (hContainer bits : ℕ) : Skf UInt32 := .call (.genRsaKeyPair hContainer bits) ret
def rsaSignData (hContainer : ℕ) : Skf UInt32 := .call (.rsaSignData hContainer) ret
def rsaVerify (hDev : Option ℕ) : Skf UInt32 := .call (.rsaVerify hDev) ret

def rsaContainer : Name := ascii "RSA_Container"

/-- RasKeyPairTest from its new key pair on. -/
def rsaTest (hDev : Option ℕ) (hCon : ℕ) : Skf UInt32 := do
  let rv ← genRsaKeyPair hCon 1024
  if rv ≠ 0 then pure rv
  else
    let r ← digestInit hDev "SGD_SHA1"
    if r.rv ≠ 0 then pure r.rv
    else inTurn [digest r.handle, rsaSignData hCon, rsaVerify hDev]

/-- Unless the code is SAR_FAIL, a container that cannot be opened is only reported, and the
handle is what the call has left in it. -/
def rasKeyPairTest (hDev hApp : Option ℕ) (api : Bool) : Skf (Bool × UInt32) :=
  useApi api 0 do
    let rv ← verifyPin hApp "123456"
    if rv ≠ 0 then pure rv
    else
      let r ← openEntry (.container hApp) rsaContainer
      if r.rv = 0 then rsaTest hDev r.handle
      else if r.rv = sarFail then
        let c ← createContainer hApp rsaContainer
        if c.rv ≠ 0 then pure c.rv else rsaTest hDev c.handle
      else rsaTest hDev r.handle

inductive KeyPairTest where
  | rsa
  | sm2
  deriving DecidableEq

def KeyPairTest.start : KeyPairTest → Option ℕ → Option ℕ → Bool → Skf (Bool × UInt32)
  | .rsa => rasKeyPairTest
  | .sm2 => keyPairTest

def containerArg : Call → Option ℕ
  | .closeContainer h | .getContainerType h | .genRsaKeyPair h _ | .genEccKeyPair h _ => some h
  | .exportPublicKey h _ | .exportCertificate h _ _ | .rsaSignData h | .eccSignData h => some h
  | .eccExportSessionKey h _ | .importEccKeyPair h | .importSessionKey h _ => some h
  | _ => none

def Provided (hist : List SkfEvent) (h : ℕ) : Prop :=
  (∃ hApp name, OpenedAs (.container hApp) hist name h) ∨
    ∃ hApp name, (⟨.createContainer hApp name, ⟨0, h⟩⟩ : SkfEvent) ∈ hist

def UsesProvided (hist : List SkfEvent) (e : SkfEvent) : Prop :=
  ∀ h, containerArg e.1 = some h → Provided hist h

def ContainersProvided (t : List SkfEvent) : Prop := Always UsesProvided [] t

/-- SKF_OpenContainer succeeds, or fails as it does for a container that is missing. -/
def OpensOrMisses (t : List SkfEvent) : Prop :=
  ∀ hApp name r, (⟨.openEntry (.container hApp) name, r⟩ : SkfEvent) ∈ t → r.rv = 0 ∨ r.rv = sarFail

/-- Calls that provide no container and get no handle of one other than `hCon`. -/
def On (hCon : ℕ) : Call → Prop
  | .openEntry _ _ | .createContainer _ _ => False
  | c => containerArg c = none ∨ containerArg c = some hCon

def ExportCall (hCon : ℕ) : Call → Prop
  | .digestInit _ _ | .digest _ | .eccVerify _ | .malloc _ => True
  | .d2iX509 _ | .writeCertificateToPemFile _ => True
  | .eccSignData h | .exportCertificate h _ _ => h = hCon
  | _ => False

theorem only_in_turn {A : Call → Prop} {ps : List (Skf UInt32)} (h : ∀ p ∈ ps, Only A p) :
    Only A (inTurn ps) := by
  induction ps with
  | nil => exact only_ret 0
  | cons p ps ih =>
    apply only_bind (h p List.mem_cons_self)
    intro rv
    exact only_ite (only_ret rv) (ih fun q hq => h q (List.mem_cons_of_mem p hq))

section Calls

variable (hDev : Option ℕ) (hCon : ℕ)

theorem sign_test_calls : Only (ExportCall hCon) (signTest hDev hCon) := by
  refine only_then trivial fun r => only_ite (only_ret r.rv) (only_in_turn ?_)
  simp only [List.forall_mem_cons]
  exact ⟨only_call trivial, only_call rfl, only_call trivial, by simp⟩

theorem save_certificate_calls (signFlag : Bool) (filename : String) :
    Only (ExportCall hCon) (saveCertificate hCon signFlag filename) := by
  have hexport : ∀ room, ExportCall hCon (.exportCertificate hCon signFlag room) := fun _ => rfl
  refine only_then (hexport none) fun r => only_ite (only_ret r.rv) ?_
  refine only_then trivial fun ok => only_then (hexport _) fun s => only_ite (only_ret s.rv) ?_
  refine only_then trivial fun cert => only_ite (only_ret 1) ?_
  exact only_then trivial fun written => only_ret _

theorem export_test_calls : Only (ExportCall hCon) (exportTest hDev hCon) := by
  apply only_in_turn
  simp only [List.forall_mem_cons]
  exact ⟨sign_test_calls hDev hCon, save_certificate_calls hCon _ _,
    save_certificate_calls hCon _ _, by simp⟩

theorem export_test_on : Only (On hCon) (exportTest hDev hCon) := by
  refine only_mono (fun c hc => ?_) (export_test_calls hDev hCon)
  cases c <;> first | exact Or.inl rfl | exact Or.inr (congrArg some hc) | exact hc.elim

theorem rsa_test_on : Only (On hCon) (rsaTest hDev hCon) := by
  have hgen : On hCon (.genRsaKeyPair hCon 1024) := Or.inr rfl
  have hinit : On hCon (.digestInit hDev "SGD_SHA1") := Or.inl rfl
  refine only_then hgen fun rv => only_ite (only_ret rv) ?_
  refine only_then hinit fun r => only_ite (only_ret r.rv) (only_in_turn ?_)
  simp only [List.forall_mem_cons]
  exact ⟨only_call (Or.inl rfl), only_call (Or.inr rfl), only_call (Or.inl rfl), by simp⟩

end Calls

section Provided

variable {t u hist : List SkfEvent} {hApp : Option ℕ} {h : ℕ}

theorem provided_append : Provided (t ++ u) h ↔ Provided t h ∨ Provided u h := by
  simp only [Provided, OpenedAs, List.mem_append, exists_or]
  exact or_or_or_comm

theorem refused_not_provided {name : Name} {r : HandleReply} (hr : r.rv ≠ 0) :
    ¬ Provided [⟨.openEntry (.container hApp) name, r⟩] h := by
  rintro (⟨hApp, name, hm⟩ | ⟨hApp, name, hm⟩)
  · cases List.mem_singleton.mp hm
    exact hr rfl
  · cases List.mem_singleton.mp hm

theorem uses_no_container {e : SkfEvent} (he : containerArg e.1 = none) (hist : List SkfEvent) :
    UsesProvided hist e := by
  intro h harg
  rw [he] at harg
  cases harg

theorem On.arg {c : Call} (hc : On h c) : containerArg c = none ∨ containerArg c = some h := by
  cases c <;> first | exact hc | exact hc.elim

theorem uses_provided {p : Skf UInt32} (hp : Only (On h) p) (hprov : Provided hist h) :
    Holds (fun u _ => Always UsesProvided hist u ∧ OpensOrMisses u) p := by
  refine holds_mono (fun u o hcalls => ⟨?_, ?_⟩) (only_holds hp)
  · refine always_of_kept (P := fun hist => Provided hist h)
      (fun hist e hp => provided_append.mpr (Or.inl hp)) (fun hist hp e he h' harg => ?_) hprov
    rcases (hcalls e he).arg with hnone | hsame
    · rw [hnone] at harg
      cases harg
    · rw [hsame] at harg
      cases harg
      exact hp
  · intro hApp name r hm
    exact (hcalls _ hm).elim

theorem always_behind {e : SkfEvent} (he : containerArg e.1 = none) :
    Always UsesProvided hist (e :: u) ↔ Always UsesProvided (hist ++ [e]) u :=
  and_iff_right (uses_no_container he hist)

theorem opens_or_misses_cons {e : SkfEvent} :
    OpensOrMisses (e :: u) ↔ OpensOrMisses [e] ∧ OpensOrMisses u := by
  constructor
  · intro hall
    refine ⟨fun hApp name r hm => ?_, fun hApp name r hm => ?_⟩
    · exact hall hApp name r (List.mem_cons.mpr (Or.inl (List.mem_singleton.mp hm)))
    · exact hall hApp name r (List.mem_cons_of_mem e hm)
  · rintro ⟨ht, hu⟩ hApp name r hm
    rcases List.mem_cons.mp hm with hm | hm
    · exact ht hApp name r (List.mem_singleton.mpr hm)
    · exact hu hApp name r hm

/-- Only opening a container can be refused. -/
theorem no_open_misses {c : Call} (r : Reply c)
    (hc : ∀ hApp name, c ≠ .openEntry (.container hApp) name) : OpensOrMisses [⟨c, r⟩] := by
  intro hApp name r' hm
  cases List.mem_singleton.mp hm
  exact absurd rfl (hc hApp name)

theorem open_misses_iff {name : Name} {r : HandleReply} :
    OpensOrMisses [⟨.openEntry (.container hApp) name, r⟩] ↔ r.rv = 0 ∨ r.rv = sarFail := by
  constructor
  · exact fun hall => hall hApp name r (List.mem_singleton_self _)
  · intro hr hApp' name' r' hm
    cases List.mem_singleton.mp hm
    exact hr

end Provided

/-- How the use of containers in a test hangs on the code of the call that opens one. -/
def Depends (which : KeyPairTest) (t : List SkfEvent) : Prop := which = .rsa → OpensOrMisses t

section Tests

variable {which : KeyPairTest} {hDev hApp : Option ℕ} {t u hist : List SkfEvent} {h : ℕ}

theorem provided_test {p : Skf UInt32} (hp : Only (On h) p) (hprov : Provided hist h) :
    Holds (fun u _ => Always UsesProvided hist u ↔ Depends which u) p :=
  holds_mono (fun _ _ hu => iff_of_true hu.1 fun _ => hu.2) (uses_provided hp hprov)

theorem depends_cons {e : SkfEvent} :
    Depends which (e :: u) ↔ Depends which [e] ∧ Depends which u := by
  simp only [Depends, opens_or_misses_cons (u := u), forall_and]

theorem test_behind {e : SkfEvent} (he : containerArg e.1 = none) (hdep : Depends which [e])
    (hrest : Always UsesProvided (hist ++ [e]) u ↔ Depends which u) :
    Always UsesProvided hist (e :: u) ↔ Depends which (e :: u) := by
  rw [always_behind he, hrest, depends_cons, and_iff_right hdep]

theorem opened_provided {name : Name} {r : HandleReply} (hr : r.rv = 0) :
    Provided (hist ++ [⟨.openEntry (.container hApp) name, r⟩]) r.handle := by
  refine Or.inl ⟨hApp, name, List.mem_append_right hist ?_⟩
  rw [← hr]
  exact List.mem_singleton_self _

theorem created_provided {name : Name} {r : HandleReply} (hr : r.rv = 0) :
    Provided (hist ++ [⟨.createContainer hApp name, r⟩]) r.handle := by
  refine Or.inr ⟨hApp, name, List.mem_append_right hist ?_⟩
  rw [← hr]
  exact List.mem_singleton_self _

theorem load_uses_none {c : Call} (hc : LoadCall c) :
    containerArg c = none ∧ ∀ hApp name, c ≠ .openEntry (.container hApp) name := by
  cases c <;> first | exact hc.elim | exact ⟨rfl, by simp⟩

theorem load_provides_none (hcalls : ∀ e ∈ t, LoadCall e.1) : ¬ Provided t h := by
  rintro (⟨hApp, name, hm⟩ | ⟨hApp, name, hm⟩)
  · exact hcalls _ hm
  · exact hcalls _ hm

theorem test_spec {body : Skf UInt32}
    (hbody : ∀ hist, (∀ e ∈ hist, LoadCall e.1) →
      Holds (fun u _ => Always UsesProvided hist u ↔ Depends which u) body) (api : Bool) :
    Holds (fun t _ => ContainersProvided t ↔ Depends which t) (useApi api 0 body) := by
  have hload : ∀ hist t u, (∀ e ∈ t, LoadCall e.1) →
      (Always UsesProvided (hist ++ t) u ↔ Depends which u) →
      (Always UsesProvided hist (t ++ u) ↔ Depends which (t ++ u)) := by
    intro hist t u hcalls hu
    induction t generalizing hist with
    | nil => rwa [List.append_nil] at hu
    | cons e t ih =>
      obtain ⟨harg, hopen⟩ := load_uses_none (hcalls e List.mem_cons_self)
      apply test_behind harg fun _ => no_open_misses e.2 hopen
      apply ih (hist ++ [e]) fun x hx => hcalls x (List.mem_cons_of_mem e hx)
      rwa [List.append_assoc]
  have halone : ∀ t, (∀ e ∈ t, LoadCall e.1) → (ContainersProvided t ↔ Depends which t) := by
    intro t hcalls
    have hend := hload [] t [] hcalls (iff_of_true trivial fun _ => by simp [OpensOrMisses])
    rwa [List.append_nil] at hend
  refine holds_mono (fun t o h => ?_) (use_api_spec api 0 (holds_forall fun hist =>
    holds_forall fun hcalls => hbody hist hcalls))
  cases h with
  | message _ hcalls => exact halone t hcalls
  | lost _ hcalls => exact halone t hcalls
  | used hcalls hno hkept hlib hspec => exact hload [] _ _ hcalls (hspec _ hcalls)

theorem holds_behind {c : Call} {f : Reply c → Skf UInt32} (hc : containerArg c = none)
    (hopen : ∀ hApp name, c ≠ .openEntry (.container hApp) name)
    (hrest : ∀ r, Holds (fun u _ => Always UsesProvided (hist ++ [⟨c, r⟩]) u ↔ Depends which u)
      (f r)) :
    Holds (fun u _ => Always UsesProvided hist u ↔ Depends which u) (.call c ret >>= f) :=
  holds_then fun r => holds_mono (fun _ _ => test_behind hc fun _ => no_open_misses r hopen)
    (hrest r)

theorem holds_end (rv : UInt32) :
    Holds (fun u _ => Always UsesProvided hist u ↔ Depends which u) (pure rv : Skf UInt32) :=
  iff_of_true trivial fun _ => by simp [OpensOrMisses]

theorem holds_checked {c : Call} {rv : Reply c → UInt32} {rest : Reply c → Skf UInt32}
    (hc : containerArg c = none) (hopen : ∀ hApp name, c ≠ .openEntry (.container hApp) name)
    (hrest : ∀ r, rv r = 0 →
      Holds (fun u _ => Always UsesProvided (hist ++ [⟨c, r⟩]) u ↔ Depends which u) (rest r)) :
    Holds (fun u _ => Always UsesProvided hist u ↔ Depends which u)
      (.call c ret >>= fun r => if rv r ≠ 0 then pure (rv r) else rest r) := by
  apply holds_behind hc hopen
  intro r
  by_cases hrv : rv r ≠ 0
  · rw [if_pos hrv]
    exact holds_end (rv r)
  · rw [if_neg hrv]
    exact hrest r (not_not.mp hrv)

theorem create_spec {name : Name} {rest : ℕ → Skf UInt32} (hrest : ∀ h, Only (On h) (rest h)) :
    Holds (fun u _ => Always UsesProvided hist u ↔ Depends which u)
      (createContainer hApp name >>= fun c => if c.rv ≠ 0 then pure c.rv else rest c.handle) := by
  refine holds_checked rfl (by simp) fun c hc => ?_
  exact provided_test (hrest c.handle) (created_provided hc)

theorem ras_key_pair_spec (hDev hApp : Option ℕ) (api : Bool) :
    Holds (fun t _ => ContainersProvided t ↔ Depends .rsa t) (rasKeyPairTest hDev hApp api) := by
  refine test_spec (fun hist hcalls => ?_) api
  refine holds_checked rfl (by simp) fun rv _ => ?_
  refine holds_then fun r => ?_
  by_cases hzero : r.rv = 0
  · rw [if_pos hzero]
    refine holds_mono (fun _ _ => test_behind rfl fun _ => open_misses_iff.mpr (Or.inl hzero)) ?_
    exact provided_test (rsa_test_on hDev r.handle) (opened_provided hzero)
  rw [if_neg hzero]
  by_cases hfail : r.rv = sarFail
  · rw [if_pos hfail]
    refine holds_mono (fun _ _ => test_behind rfl fun _ => open_misses_iff.mpr (Or.inr hfail)) ?_
    exact create_spec (rsa_test_on hDev)
  · rw [if_neg hfail]
    -- the first call behind the refused open already gets the handle
    refine holds_then fun rv => holds_of_forall fun u o => iff_of_false ?_ ?_
    · rintro ⟨-, huse, -⟩
      rcases provided_append.mp (huse r.handle rfl) with hbefore | hopened
      · rcases provided_append.mp hbefore with hload | hpin
        · exact load_provides_none hcalls hload
        · simp [Provided, OpenedAs] at hpin
      · exact refused_not_provided hzero hopened
    · intro hdep
      have hopen := (opens_or_misses_cons.mp (hdep rfl)).1
      exact (open_misses_iff.mp hopen).elim hzero hfail

theorem key_pair_spec (hDev hApp : Option ℕ) (api : Bool) :
    Holds (fun t _ => ContainersProvided t ↔ Depends .sm2 t) (keyPairTest hDev hApp api) := by
  refine test_spec (fun hist hcalls => ?_) api
  refine holds_checked rfl (by simp) fun rv _ => ?_
  refine holds_then fun r => holds_mono (fun _ _ => test_behind rfl fun h => by cases h) ?_
  by_cases hzero : r.rv = 0
  · rw [if_pos hzero]
    refine provided_test ?_ (opened_provided hzero)
    have htype : On r.handle (.getContainerType r.handle) := Or.inr rfl
    refine only_then htype fun _ => only_in_turn ?_
    simp only [List.forall_mem_cons]
    exact ⟨only_call (Or.inr rfl), only_call (Or.inr rfl), export_test_on hDev r.handle, by simp⟩
  rw [if_neg hzero]
  by_cases hfail : r.rv ≠ sarFail
  · rw [if_pos hfail]
    exact holds_end r.rv
  · rw [if_neg hfail]
    have hrest : ∀ h, Only (On h) (inTurn [genEccKeyPair h "SGD_SM2_1",
        genEccKeyPair h "SGD_SM2_3", exportTest hDev h]) := by
      intro h
      apply only_in_turn
      simp only [List.forall_mem_cons]
      exact ⟨only_call (Or.inr rfl), only_call (Or.inr rfl), export_test_on hDev h, by simp⟩
    exact create_spec hrest

end Tests

/-- A test uses its container only after it was opened or created, unless it is
RasKeyPairTest and the container is neither opened nor missing. -/
theorem containers_provided_iff (which : KeyPairTest) (hDev hApp : Option ℕ) (api : Bool) :
    Holds (fun t _ => ContainersProvided t ↔ (which = .rsa → OpensOrMisses t))
      (which.start hDev hApp api) := by
  cases which with
  | rsa => exact ras_key_pair_spec hDev hApp api
  | sm2 => exact key_pair_spec hDev hApp api

def refusingToken (hist : List SkfEvent) : (c : Call) → Reply c
  | .openEntry _ _ => (⟨0x0A000002, 99⟩ : HandleReply)
  | c => emptyToken true hist c

/-- A key pair is generated in a container that was refused. -/
theorem refused_container_used :
    ¬ ContainersProvided (run refusingToken [] (rasKeyPairTest (some 1) (some 2) true)).1 := by
  rw [holds_run (ras_key_pair_spec (some 1) (some 2) true) refusingToken []]
  intro hdep
  have hm : (⟨.openEntry (.container (some 2)) rsaContainer, ⟨0x0A000002, 99⟩⟩ : SkfEvent) ∈
      (run refusingToken [] (rasKeyPairTest (some 1) (some 2) true)).1 :=
    List.mem_of_getElem? (i := 1) rfl
  have hcode := hdep rfl _ _ _ hm
  revert hcode
  decide

end SkfContainers
