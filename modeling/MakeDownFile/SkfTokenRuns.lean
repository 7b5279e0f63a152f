import MakeDownFile.SkfTokenProgram
import MakeDownFile.TraceRuns

/-! # Runs of the token program

What main passes to the token while it lists it, and what it iterates over. -/
namespace SkfTokenRuns

open CallPrograms
open CallPrograms.Prog
open NameLists
open SkfApi
open SkfEnumeration
open SkfTokenProgram
open TraceRuns

def DevOpen (hist : List SkfEvent) (hDev : Option ℕ) : Prop :=
  ∃ d, hDev = some d ∧ Since (fun e => ∃ name, e = ⟨.openEntry .device name, ⟨0, d⟩⟩)
    (fun e => e = ⟨.disConnectDev (some d), (0 : UInt32)⟩) hist

def AppOpen (hist : List SkfEvent) (hApp : Option ℕ) : Prop :=
  ∃ a, hApp = some a ∧
    Since (fun e => ∃ hDev name, e = ⟨.openEntry (.application hDev) name, ⟨0, a⟩⟩)
      (fun e => e = ⟨.closeApplication (some a), (0 : UInt32)⟩) hist

def UsesOk (hist : List SkfEvent) : Call → Prop
  | .enum (.application hDev) _ | .openEntry (.application hDev) _ => DevOpen hist hDev
  | .enum (.container hApp) _ | .openEntry (.container hApp) _ => AppOpen hist hApp
  | .digestInit hDev _ | .eccVerify hDev | .rsaVerify hDev | .disConnectDev hDev =>
    DevOpen hist hDev
  | .createContainer hApp _ | .verifyPin hApp _ | .closeApplication hApp => AppOpen hist hApp
  | _ => True

def HandlesOpen (t : List SkfEvent) : Prop := Always (fun hist e => UsesOk hist e.1) [] t

def UnsetRead (t : List SkfEvent) : Prop := ∃ n, (⟨.unsetCount, n⟩ : SkfEvent) ∈ t

def AppsNamed (t : List SkfEvent) : Prop := ∀ hDev, ListsNames (.application hDev) t

/-- A count is read unset just where a message was set or a device listed no application. -/
def Balanced (t : List SkfEvent) : Prop := UnsetRead t ↔ ErrorMessage t ∨ ¬ AppsNamed t

def Closing : Call → Prop
  | .closeApplication _ | .disConnectDev _ => True
  | _ => False

def Quiet : Call → Prop
  | .unsetCount | .strdup _ | .enum (.application _) _ => False
  | _ => True

/-- A call that is in order after `t` and everything that may follow without a close. -/
def Fine (t : List SkfEvent) (c : Call) : Prop :=
  ¬ Closing c ∧ ∀ h, t ⊆ h → (∀ e ∈ h, ¬ Closing e.1) → UsesOk h c

structure Sound (t : List SkfEvent) : Prop where
  handles : HandlesOpen t
  open_only : ∀ e ∈ t, ¬ Closing e.1
  balanced : Balanced t

/-- An attempt to load the library finds its last function only after all others. -/
def Loaded (t : List SkfEvent) : Prop := HasProc t "SKF_CancelWaitForDevEvent"

section Traces

variable {t u : List SkfEvent}

theorem unsetRead_append : UnsetRead (t ++ u) ↔ UnsetRead t ∨ UnsetRead u := by
  simp only [UnsetRead, List.mem_append, exists_or]

theorem appsNamed_append : AppsNamed (t ++ u) ↔ AppsNamed t ∧ AppsNamed u := by
  simp only [AppsNamed, ListsNames, listed_append]
  constructor
  · exact fun h => ⟨fun d l hl => h d l (Or.inl hl), fun d l hl => h d l (Or.inr hl)⟩
  · rintro ⟨ht, hu⟩ d l (hl | hl)
    · exact ht d l hl
    · exact hu d l hl

theorem balanced_append (ht : Balanced t) (hu : Balanced u) : Balanced (t ++ u) := by
  unfold Balanced at *
  rw [unsetRead_append, errorMessage_append, appsNamed_append, ht, hu]
  by_cases hmt : ErrorMessage t <;> by_cases hmu : ErrorMessage u <;>
    by_cases hat : AppsNamed t <;> simp [hmt, hmu, hat]

theorem balanced_of_quiet (h : ∀ e ∈ u, Quiet e.1) : Balanced u := by
  have hread : ¬ UnsetRead u := fun ⟨n, hm⟩ => h _ hm
  have hmessage : ¬ ErrorMessage u := fun ⟨m, hm⟩ => h _ hm
  have hnamed : AppsNamed u := fun d l ⟨room, hm, _⟩ => absurd hm (h _)
  simp [Balanced, hread, hmessage, hnamed]

theorem balanced_spoilt (hread : UnsetRead t) (hmessage : ErrorMessage t) (u : List SkfEvent) :
    Balanced (t ++ u) := by
  simp [Balanced, unsetRead_append, errorMessage_append, hread, hmessage]

theorem handles_open_append (hclose : ∀ e ∈ t, ¬ Closing e.1) (hu : ∀ e ∈ u, Fine t e.1) :
    Always (fun hist e => UsesOk hist e.1) t u := by
  induction u generalizing t with
  | nil => trivial
  | cons e u ih =>
    have he := hu e List.mem_cons_self
    refine ⟨he.2 t (List.Subset.refl t) hclose, ih ?_ fun x hx => ?_⟩
    · intro x hx
      rcases List.mem_append.mp hx with hx | hx
      · exact hclose x hx
      · rw [List.mem_singleton.mp hx]
        exact he.1
    · obtain ⟨hno, huse⟩ := hu x (List.mem_cons_of_mem _ hx)
      exact ⟨hno, fun h hsub => huse h (List.Subset.trans (List.subset_append_left t [e]) hsub)⟩

theorem Sound.append (h : Sound t) (hu : ∀ e ∈ u, Fine t e.1) (hb : Balanced u) :
    Sound (t ++ u) := by
  refine ⟨?_, fun e he => ?_, balanced_append h.balanced hb⟩
  · exact always_append.mpr ⟨h.handles, by simpa using handles_open_append h.open_only hu⟩
  · rcases List.mem_append.mp he with he | he
    · exact h.open_only e he
    · exact (hu e he).1

end Traces

/-- From the calls `t` on, a part of main keeps them sound and ends with `P`. -/
def Guarantees {α : Type} (t : List SkfEvent) (P : List SkfEvent → α → Prop) (p : Skf α) : Prop :=
  Holds (fun u o => Sound (t ++ u) ∧ ∀ a, o = some a → P (t ++ u) a) p

section Guarantees

variable {α β ι : Type} {t : List SkfEvent} {P : List SkfEvent → α → Prop}
  {Q : List SkfEvent → β → Prop} {p : Skf α} {f : α → Skf β}

theorem guarantees_ret (h : Sound t) {a : α} (ha : P t a) : Guarantees t P (ret a) := by
  refine ⟨by rwa [List.append_nil], ?_⟩
  rintro _ ⟨⟩
  rwa [List.append_nil]

theorem guarantees_fault (h : Sound t) : Guarantees t P fault :=
  ⟨by rwa [List.append_nil], by simp⟩

theorem guarantees_bind (hp : Guarantees t P p)
    (hf : ∀ t' a, t ⊆ t' → Sound t' → P t' a → Guarantees t' Q (f a)) :
    Guarantees t Q (p >>= f) := by
  apply holds_bind hp
  · exact fun u hu => ⟨hu.1, by simp⟩
  · intro u a hu
    have hnext := hf (t ++ u) a (List.subset_append_left t u) hu.1 (hu.2 a rfl)
    exact holds_mono (fun v o hv => by rwa [List.append_assoc] at hv) hnext

theorem guarantees_step {R : List SkfEvent → Option α → Prop} (hp : Holds R p)
    (hfault : ∀ u, R u none → Sound (t ++ u))
    (hf : ∀ u a, R u (some a) → Guarantees (t ++ u) Q (f a)) : Guarantees t Q (p >>= f) := by
  apply holds_bind hp
  · exact fun u hu => ⟨hfault u hu, by simp⟩
  · intro u a hu
    exact holds_mono (fun v o hv => by rwa [List.append_assoc] at hv) (hf u a hu)

theorem guarantees_foldlM {I : List SkfEvent → α → Prop} {body : α → ι → Skf α} {s : α}
    (h : Sound t) (hs : I t s)
    (hbody : ∀ x t' s', t ⊆ t' → Sound t' → I t' s' → Guarantees t' I (body s' x)) (xs : List ι) :
    Guarantees t I (xs.foldlM body s) := by
  induction xs generalizing t s with
  | nil => exact guarantees_ret h hs
  | cons x xs ih =>
    apply guarantees_bind (hbody x t s (List.Subset.refl t) h hs)
    intro t' s' hsub hsound hi
    exact ih hsound hi fun x t'' s'' hsub' => hbody x t'' s'' (List.Subset.trans hsub hsub')

theorem guarantees_of_holds {R : List SkfEvent → Option α → Prop} (h : Sound t) (hp : Holds R p)
    (hR : ∀ u o, R u o → (∀ e ∈ u, Fine t e.1) ∧ Balanced u ∧ ∀ a, o = some a → P (t ++ u) a) :
    Guarantees t P p := by
  refine holds_mono (fun u o hu => ?_) hp
  obtain ⟨hfine, hb, hend⟩ := hR u o hu
  exact ⟨h.append hfine hb, hend⟩

end Guarantees

section Listing

variable {t : List SkfEvent} {array : Option (OutArray ℕ)}

theorem use_api_loaded {α : Type} (failed : α) (body : Skf α) :
    useApi true failed body = body >>= fun a => ret (true, a) := rfl

theorem cell_guarantee (h : Sound t) (i : ℕ) :
    Guarantees t (fun _ x => ∃ a, array = some a ∧ x ∈ a.cells) (cell array i) := by
  unfold cell
  cases hx : array.bind fun a => a.cells[i]? with
  | none => exact guarantees_fault h
  | some x =>
    obtain ⟨a, rfl, hcell⟩ := Option.bind_eq_some_iff.mp hx
    exact guarantees_ret h ⟨a, rfl, List.mem_of_getElem? hcell⟩

theorem loaded_holds {α : Type} {P : List SkfEvent → Option α → Prop} {body : Skf α}
    (hbody : Holds P body) (failed : α) :
    Holds (fun u o => P u (o.map Prod.snd) ∧ ∀ r, o = some r → r.1 = true)
      (useApi true failed body) := by
  rw [use_api_loaded]
  apply holds_bind hbody
  · exact fun u hu => ⟨hu, by simp⟩
  · intro u a hu
    refine ⟨by rwa [List.append_nil], ?_⟩
    rintro r ⟨⟩
    rfl

theorem fine_of_entry {level : Level} {c : Call} (h : EntryCall level c)
    (huse : ∀ hist, t ⊆ hist → (∀ e ∈ hist, ¬ Closing e.1) → UsesOk hist (.enum level none)) :
    Fine t c := by
  cases c with
  | malloc size => exact ⟨id, fun hist _ _ => trivial⟩
  | enum l room =>
    have hl : l = level := h
    subst hl
    refine ⟨id, fun hist hsub hclose => ?_⟩
    have := huse hist hsub hclose
    cases l <;> exact this
  | openEntry l name =>
    have hl : l = level := h
    subst hl
    refine ⟨id, fun hist hsub hclose => ?_⟩
    have := huse hist hsub hclose
    cases l <;> exact this
  | _ => exact h.elim

theorem device_use {d : ℕ} (h : ValidHandle .device t d) {hist : List SkfEvent} (hsub : t ⊆ hist)
    (hclose : ∀ e ∈ hist, ¬ Closing e.1) : UsesOk hist (.enum (.application (some d)) none) := by
  obtain ⟨name, hm⟩ := h
  refine ⟨d, rfl, since_of_mem (hsub hm) ⟨name, rfl⟩ fun x hx hq => ?_⟩
  exact hclose x hx (hq ▸ trivial)

theorem application_use {hDev : Option ℕ} {a : ℕ} (h : ValidHandle (.application hDev) t a)
    {hist : List SkfEvent} (hsub : t ⊆ hist) (hclose : ∀ e ∈ hist, ¬ Closing e.1) :
    UsesOk hist (.enum (.container (some a)) none) := by
  obtain ⟨name, hm⟩ := h
  refine ⟨a, rfl, since_of_mem (hsub hm) ⟨hDev, name, rfl⟩ fun x hx hq => ?_⟩
  exact hclose x hx (hq ▸ trivial)

theorem container_quiet {hApp : Option ℕ} {c : Call} (h : EntryCall (.container hApp) c) :
    Quiet c := by
  cases c with
  | enum l room =>
    have hl : l = .container hApp := h
    subst hl
    trivial
  | malloc size => trivial
  | openEntry l name => trivial
  | _ => exact h.elim

theorem containers_guarantee (h : Sound t) {hDev : Option ℕ} {a : ℕ}
    (ha : ValidHandle (.application hDev) t a) :
    Guarantees t (fun _ r => r.1 = true) (getContainerHandles (some a) true) := by
  have hbody : Holds (EntriesSpec (.container (some a)) (OpenedAs (.container (some a))))
      (getEntries (.container (some a)) (openHandle (.container (some a)))) :=
    get_entries_spec opened_as_mono open_handle_spec
  refine guarantees_of_holds h (loaded_holds hbody (stop 0)) fun u o hu => ?_
  refine ⟨fun e he => ?_, ?_, hu.2⟩
  · exact fine_of_entry (hu.1.calls e he) fun _ => application_use ha
  · exact balanced_of_quiet fun e he => container_quiet (hu.1.calls e he)

def CertificateCall : Call → Prop
  | .exportCertificate _ _ _ | .malloc _ | .d2iX509 _ => True
  | _ => False

theorem certificate_fine {c : Call} (h : CertificateCall c) : Fine t c ∧ Quiet c := by
  cases c with
  | exportCertificate hContainer signFlag room => exact ⟨⟨id, fun _ _ _ => trivial⟩, trivial⟩
  | malloc size => exact ⟨⟨id, fun _ _ _ => trivial⟩, trivial⟩
  | d2iX509 length => exact ⟨⟨id, fun _ _ _ => trivial⟩, trivial⟩
  | _ => exact h.elim

theorem certificate_guarantee (h : Sound t) (hContainer : ℕ) (bSignFlag : Bool) :
    Guarantees t (fun _ r => r.1 = true) (getCertificateToX509 hContainer bSignFlag true) := by
  have hread : ∀ (room : Option ℕ), Only CertificateCall (do
      let s ← exportCertificate hContainer bSignFlag room
      if s.rv ≠ 0 then pure false else d2iX509 s.length) := by
    intro room
    refine only_then trivial fun s => ?_
    exact only_ite (only_ret false) ⟨trivial, fun _ => trivial⟩
  refine guarantees_of_holds h (loaded_holds (only_holds (A := CertificateCall) ?_) false)
    fun u o hu => ?_
  · refine only_then trivial fun r => ?_
    apply only_ite (only_ret false)
    apply only_ite (hread none)
    refine only_then trivial fun pbCert => ?_
    exact only_ite (only_ret false) (hread (some r.length))
  · refine ⟨fun e he => (certificate_fine (hu.1 e he)).1, ?_, hu.2⟩
    exact balanced_of_quiet fun e he => (certificate_fine (t := t) (hu.1 e he)).2

theorem valid_cells_mono {level : Level} {t' : List SkfEvent}
    (harray : ∀ a, array = some a → ∀ x ∈ a.cells, ValidHandle level t x) (hsub : t ⊆ t') :
    ∀ a, array = some a → ∀ x ∈ a.cells, ValidHandle level t' x := by
  intro a ha x hx
  obtain ⟨name, hm⟩ := harray a ha x hx
  exact ⟨name, hsub hm⟩

theorem application_guarantee (h : Sound t) {hDev : Option ℕ}
    (harray : ∀ a, array = some a → ∀ x ∈ a.cells, ValidHandle (.application hDev) t x) (j : ℕ) :
    Guarantees t (fun _ api => api = true) (listApplication array true j) := by
  apply guarantees_bind (cell_guarantee h j)
  rintro t₁ hApp hsub₁ h₁ ⟨a, ha, hcell⟩
  have hopen := valid_cells_mono harray hsub₁ a ha hApp hcell
  apply guarantees_bind (containers_guarantee h₁ hopen)
  rintro t₂ r hsub₂ h₂ hr
  refine guarantees_foldlM (I := fun _ api => api = true) h₂ hr
    (fun k t₃ api hsub₃ h₃ hapi => ?_) _
  subst hapi
  apply guarantees_bind (cell_guarantee h₃ k)
  rintro t₄ hCon hsub₄ h₄ -
  apply guarantees_bind (certificate_guarantee h₄ hCon true)
  rintro t₅ x hsub₅ h₅ hx
  exact guarantees_ret h₅ hx

theorem applications_guarantee (h : Sound t) {hDev : Option ℕ}
    (harray : ∀ a, array = some a → ∀ x ∈ a.cells, ValidHandle (.application hDev) t x) (n : ℕ) :
    Guarantees t (fun _ api => api = true)
      ((List.range n).foldlM (listApplication array) true) := by
  refine guarantees_foldlM (I := fun _ api => api = true) h rfl
    (fun j t' api hsub h' hapi => ?_) _
  subst hapi
  exact application_guarantee h' (valid_cells_mono harray hsub) j

/-- Without the count of a list its variable is read as it is. -/
theorem unset_count_spec : Holds (fun v o => ∃ n, v = [⟨.unsetCount, n⟩] ∧ o = some n)
    (readCount (stop 0 : Found ℕ).count) := fun n => ⟨n, rfl, rfl⟩

theorem application_calls {hDev : Option ℕ} {u : List SkfEvent}
    (h : ∀ e ∈ u, EntryCall (.application hDev) e.1) :
    ¬ UnsetRead u ∧ ¬ ErrorMessage u ∧ (AppsNamed u ↔ ListsNames (.application hDev) u) := by
  refine ⟨fun ⟨n, hm⟩ => h _ hm, entry_silent h, fun hnamed => hnamed hDev, ?_⟩
  rintro hnames hDev' list ⟨room, hm, hroom⟩
  have hlevel : Level.application hDev' = .application hDev := h _ hm
  rw [hlevel] at hm
  exact hnames list ⟨room, hm, hroom⟩

/-- Listing the applications of a device is sound unless the list is without a name, and then
it is sound together with the reading of their count. -/
theorem app_handles_balanced {hDev : Option ℕ} {u : List SkfEvent} {o : Option (Found ℕ)}
    (hspec : EntriesSpec (.application hDev) (OpenedAs (.application hDev)) u o) :
    (o ≠ some (stop 0) → Balanced u) ∧
      ∀ n, o = some (stop 0) → Balanced (u ++ [⟨.unsetCount, n⟩]) := by
  obtain ⟨hread, hsilent, hnamed⟩ := application_calls hspec.calls
  rw [lists_names_iff, ← hspec.empty] at hnamed
  constructor
  · intro ho
    simp [Balanced, hread, hsilent, hnamed, ho]
  · intro n ho
    have hunset : UnsetRead [(⟨.unsetCount, n⟩ : SkfEvent)] := ⟨n, List.mem_singleton_self _⟩
    simp [Balanced, unsetRead_append, appsNamed_append, hunset, hnamed, ho]

theorem device_calls_fine {d : ℕ} (hd : ValidHandle .device t d) {u : List SkfEvent}
    (hu : ∀ e ∈ u, EntryCall (.application (some d)) e.1) : ∀ e ∈ u, Fine t e.1 :=
  fun e he => fine_of_entry (hu e he) fun _ => device_use hd

theorem nameless_device_guarantee (h : Sound t) {d : ℕ} (hd : ValidHandle .device t d)
    {u : List SkfEvent} (hspec : EntriesSpec (.application (some d))
      (OpenedAs (.application (some d))) u (some (stop 0))) :
    Guarantees (t ++ u) (fun _ api => api = true)
      (readCount (stop 0 : Found ℕ).count >>= fun appsize =>
        (List.range appsize).foldlM (listApplication (stop 0 : Found ℕ).array) true) := by
  apply guarantees_step unset_count_spec
  · rintro v ⟨n, -, ⟨⟩⟩
  · rintro v m ⟨n, rfl, -⟩
    have hcalls : ∀ e ∈ u ++ [⟨.unsetCount, n⟩], Fine t e.1 := by
      intro e he
      rcases List.mem_append.mp he with he | he
      · exact device_calls_fine hd hspec.calls e he
      · rw [List.mem_singleton.mp he]
        exact ⟨id, fun _ _ _ => trivial⟩
    have hnone : ∀ a, (stop 0 : Found ℕ).array = some a → ∀ x ∈ a.cells,
        ValidHandle (.application (some d)) (t ++ (u ++ [⟨.unsetCount, n⟩])) x := by
      rintro a ⟨⟩
    rw [List.append_assoc]
    exact applications_guarantee (h.append hcalls ((app_handles_balanced hspec).2 n rfl)) hnone m

theorem named_device_guarantee (h : Sound t) {d : ℕ} (hd : ValidHandle .device t d)
    {u : List SkfEvent} {f : Found ℕ} (hspec : EntriesSpec (.application (some d))
      (OpenedAs (.application (some d))) u (some f))
    (hcomplete : Complete (.application (some d)) (OpenedAs (.application (some d))) u f) :
    Guarantees (t ++ u) (fun _ api => api = true)
      (readCount f.count >>= fun appsize =>
        (List.range appsize).foldlM (listApplication f.array) true) := by
  have hvalid : ∀ a, f.array = some a → ∀ x ∈ a.cells,
      ValidHandle (.application (some d)) (t ++ u) x := complete_valid hcomplete
  obtain ⟨list, ns, apps, -, -, happs, hcount, -⟩ := hcomplete
  have hne : some f ≠ some (stop 0) := by
    rintro ⟨⟩
    cases happs
  have hsound : Sound (t ++ u) :=
    h.append (device_calls_fine hd hspec.calls) ((app_handles_balanced hspec).1 hne)
  rw [hcount]
  exact applications_guarantee hsound hvalid ns.length

theorem device_guarantee (h : Sound t)
    (harray : ∀ a, array = some a → ∀ x ∈ a.cells, ValidHandle .device t x) (i : ℕ) :
    Guarantees t (fun _ api => api = true) (listDevice array true i) := by
  apply guarantees_bind (cell_guarantee h i)
  rintro t₁ d hsub₁ h₁ ⟨a, ha, hcell⟩
  have hd : ValidHandle .device t₁ d := valid_cells_mono harray hsub₁ a ha d hcell
  have hbody : Holds (EntriesSpec (.application (some d)) (OpenedAs (.application (some d))))
      (getEntries (.application (some d)) (openHandle (.application (some d)))) :=
    get_entries_spec opened_as_mono open_handle_spec
  apply guarantees_step (loaded_holds hbody (stop 0))
  · intro u hu
    exact h₁.append (device_calls_fine hd hu.1.calls) ((app_handles_balanced hu.1).1 (by simp))
  · rintro u ⟨api, f⟩ ⟨hspec, hapi⟩
    have hapi' : api = true := hapi (api, f) rfl
    subst hapi'
    by_cases hrv : f.rv ≠ 0
    · rw [if_pos hrv]
      have hne : some f ≠ some (stop 0) := by
        rintro ⟨⟩
        exact hrv rfl
      have hbal := (app_handles_balanced hspec).1 hne
      exact guarantees_ret (h₁.append (device_calls_fine hd hspec.calls) hbal) rfl
    rw [if_neg hrv]
    rcases hspec.found f rfl (not_not.mp hrv) with rfl | hcomplete
    · exact nameless_device_guarantee h₁ hd hspec
    · exact named_device_guarantee h₁ hd hspec hcomplete

theorem load_fine {c : Call} (h : LoadCall c) : Fine t c := by
  cases c <;> first | exact ⟨id, fun _ _ _ => trivial⟩ | exact h.elim

theorem device_entry_fine {c : Call} (h : EntryCall .device c) : Fine t c :=
  fine_of_entry h fun _ _ _ => trivial

theorem sound_nil : Sound [] :=
  ⟨trivial, by simp, by simp [Balanced, UnsetRead, ErrorMessage, AppsNamed, ListsNames, Listed]⟩

/-- Loading the library without a message and listing its devices reads no count and no list
of applications. -/
theorem device_list_sound {u : List SkfEvent} (ht : ∀ e ∈ t, LoadCall e.1)
    (hno : ¬ ErrorMessage t) (hu : ∀ e ∈ u, EntryCall .device e.1) : Sound (t ++ u) := by
  have hbal : Balanced (t ++ u) := by
    have hread : ¬ UnsetRead (t ++ u) := by
      rw [unsetRead_append]
      rintro (⟨n, hm⟩ | ⟨n, hm⟩)
      · exact ht _ hm
      · exact hu _ hm
    have hnamed : AppsNamed (t ++ u) := by
      rintro hDev list ⟨room, hm, -⟩
      rcases List.mem_append.mp hm with hm | hm
      · exact (ht _ hm).elim
      · cases hu _ hm
    simp [Balanced, hread, errorMessage_append, hno, entry_silent hu, hnamed]
  refine sound_nil.append (fun e he => ?_) hbal
  rcases List.mem_append.mp he with he | he
  · exact load_fine (ht e he)
  · exact device_entry_fine (hu e he)

theorem null_devices_guarantee (h : Sound t) (api : Bool) (n : ℕ) :
    Guarantees t (fun t' api' => t' = t ∧ api' = api)
      ((List.range n).foldlM (listDevice none) api) := by
  cases n with
  | zero => exact guarantees_ret h ⟨rfl, rfl⟩
  | succ n =>
    rw [List.range_succ_eq_map]
    exact guarantees_fault h

theorem devices_guarantee (h : Sound t)
    (harray : ∀ a, array = some a → ∀ x ∈ a.cells, ValidHandle .device t x) (n : ℕ) :
    Guarantees t (fun t' api => t ⊆ t' ∧ api = true)
      ((List.range n).foldlM (listDevice array) true) := by
  refine guarantees_foldlM (I := fun t' api => t ⊆ t' ∧ api = true) h
    ⟨List.Subset.refl t, rfl⟩ (fun i t' api _ h' hinv => ?_) _
  obtain ⟨hsub, rfl⟩ := hinv
  have hnext := device_guarantee h' (valid_cells_mono harray hsub) i
  exact holds_mono (fun u o hu => ⟨hu.1, fun api ho =>
    ⟨List.Subset.trans hsub (List.subset_append_left t' u), hu.2 api ho⟩⟩) hnext

def ReadyForTests (t : List SkfEvent) (api : Bool) : Prop :=
  if api then Loaded t else ¬ Loaded t ∧ UnsetRead t ∧ ErrorMessage t

theorem message_guarantee {u : List SkfEvent} (hcalls : ∀ e ∈ u, LoadCall e.1)
    (hmessage : ErrorMessage u) (hload : ¬ Loaded u) :
    Guarantees ([] ++ u) (fun t r => ∀ api, r = some api → ReadyForTests t api) (do
      let devsize ← readCount (stop 0 : Found ℕ).count
      let api ← (List.range devsize).foldlM (listDevice (stop 0 : Found ℕ).array) false
      pure (some api)) := by
  apply guarantees_step unset_count_spec
  · rintro v ⟨n, -, ⟨⟩⟩
  · rintro v m ⟨n, rfl, -⟩
    have hunset : UnsetRead (u ++ [⟨.unsetCount, n⟩]) :=
      unsetRead_append.mpr (Or.inr ⟨n, List.mem_singleton_self _⟩)
    have herror : ErrorMessage (u ++ [⟨.unsetCount, n⟩]) :=
      errorMessage_append.mpr (Or.inl hmessage)
    have hloaded : ¬ Loaded (u ++ [⟨.unsetCount, n⟩]) := by
      rintro hm
      rcases List.mem_append.mp hm with hm | hm
      · exact hload hm
      · cases List.mem_singleton.mp hm
    have hsound : Sound (u ++ [⟨.unsetCount, n⟩]) := by
      refine sound_nil.append (fun e he => ?_) ?_
      · rcases List.mem_append.mp he with he | he
        · exact load_fine (hcalls e he)
        · rw [List.mem_singleton.mp he]
          exact ⟨id, fun _ _ _ => trivial⟩
      · simpa using balanced_spoilt hunset herror []
    rw [List.nil_append]
    apply guarantees_bind (null_devices_guarantee hsound false m)
    rintro t' api - hsound' ⟨rfl, rfl⟩
    refine guarantees_ret hsound' ?_
    rintro api ⟨⟩
    exact ⟨hloaded, hunset, herror⟩

theorem list_token_guarantee :
    Guarantees [] (fun t r => ∀ api, r = some api → ReadyForTests t api) listToken := by
  apply guarantees_step (use_api_spec false (stop 0) get_devices_spec)
  · intro u hu
    generalize ho : none = o at hu
    cases hu with
    | message hapi hcalls hmessage hload => cases ho
    | lost hapi hcalls hno hload =>
      rw [List.nil_append, ← List.append_nil u]
      exact device_list_sound hcalls hno (by simp)
    | used hcalls hno hkept hload hspec =>
      rw [List.nil_append]
      exact device_list_sound hcalls hno hspec.calls
  · rintro u ⟨api, f⟩ hu
    generalize ho : some (api, f) = o at hu
    cases hu with
    | message hapi hcalls hmessage hload =>
      cases ho
      exact message_guarantee hcalls hmessage hload
    | lost hapi hcalls hno hload => cases ho
    | used hcalls hno hkept hload hspec =>
      rename_i t v o
      obtain ⟨_, hsome, heq⟩ := Option.map_eq_some_iff.mp ho.symm
      cases heq
      have hsound := device_list_sound hcalls hno hspec.calls
      have hloaded : Loaded (t ++ v) := List.mem_append_left v (hload rfl _ last_proc_mem)
      by_cases hrv : f.rv ≠ 0
      · rw [if_pos hrv]
        refine guarantees_ret hsound ?_
        rintro api ⟨⟩
      rw [if_neg hrv]
      have hcomplete := hspec.found f hsome (not_not.mp hrv)
      have hvalid : ∀ a, f.array = some a → ∀ x ∈ a.cells, ValidHandle .device (t ++ v) x :=
        complete_valid hcomplete
      obtain ⟨list, ns, devs, -, -, -, hcount, -⟩ := hcomplete
      show Guarantees _ _ (readCount f.count >>= fun devsize => do
        let api ← (List.range devsize).foldlM (listDevice f.array) true
        pure (some api))
      rw [hcount]
      apply guarantees_bind (devices_guarantee hsound hvalid ns.length)
      rintro t' api - hsound' ⟨hsub, rfl⟩
      refine guarantees_ret hsound' ?_
      rintro api ⟨⟩
      exact hsub hloaded

end Listing

/-- main ends while it lists the token, or its tests follow. -/
theorem main_cases (env : List SkfEvent → (c : Call) → Reply c) :
    (Sound (run env [] main).1 ∧ ∀ t api, run env [] listToken ≠ (t, some (some api))) ∨
    ∃ t api, run env [] listToken = (t, some (some api)) ∧ Sound t ∧ ReadyForTests t api ∧
      (run env [] main).1 = t ++ (run env t (runTests none none api)).1 := by
  obtain ⟨hsound, hready⟩ := holds_run list_token_guarantee env []
  rw [List.nil_append] at hsound hready
  unfold main
  cases hrun : run env [] listToken with
  | mk t o =>
    rw [hrun] at hsound hready
    cases o with
    | none =>
      left
      rw [run_bind_none hrun]
      refine ⟨hsound, ?_⟩
      rintro t' api ⟨⟩
    | some r =>
      rw [run_bind_some hrun]
      cases r with
      | none =>
        left
        refine ⟨?_, ?_⟩
        · simpa using hsound
        · rintro t' api ⟨⟩
      | some api =>
        right
        refine ⟨t, api, rfl, hsound, hready (some api) rfl api rfl, ?_⟩
        rw [List.nil_append]

def emptyToken (library : Bool) (_hist : List SkfEvent) : (c : Call) → Reply c
  | .loadLibraryEx => library
  | .vosMalloc | .getProcAddress _ | .strdup _ | .malloc _ => true
  | .d2iX509 _ | .writeCertificateToPemFile _ => true
  | .freeLibrary => ()
  | .unsetCount => (1 : ℕ)
  | .enum _ _ => (⟨0, [0, 0]⟩ : ListReply)
  | .openEntry _ _ | .createContainer _ _ | .digestInit _ _ => (⟨0, 1⟩ : HandleReply)
  | .eccExportSessionKey _ _ | .importSessionKey _ _ => (⟨0, 1⟩ : HandleReply)
  | .exportCertificate _ _ _ => (⟨0, 1⟩ : LengthReply)
  | .closeContainer _ | .closeApplication _ | .disConnectDev _ | .verifyPin _ _ => (0 : UInt32)
  | .getContainerType _ | .genRsaKeyPair _ _ | .genEccKeyPair _ _ => (0 : UInt32)
  | .exportPublicKey _ _ | .digest _ | .rsaSignData _ | .rsaVerify _ => (0 : UInt32)
  | .eccSignData _ | .eccVerify _ => (0 : UInt32)
  | .encryptInit _ | .encryptUpdate _ | .encryptFinal _ | .importEccKeyPair _ => (0 : UInt32)

end SkfTokenRuns
