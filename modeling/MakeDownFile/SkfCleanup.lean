import MakeDownFile.SkfListLoops
import MakeDownFile.SkfTokenRuns

/-! # Listings that fail

What the three functions that open handles leave behind when they return an error: nothing is
closed before it, and only two of them free the array. -/
namespace SkfCleanup

open CallPrograms
open CallPrograms.Prog
open NameLists
open SkfApi
open SkfEnumeration
open SkfListLoops
open SkfTokenProgram
open SkfTokenRuns

def openHandles : Level → Bool → Skf (Bool × Found ℕ)
  | .device => getDevHandles
  | .application hDev => getAppHandles hDev
  | .container hApp => getContainerHandles hApp

def closing : Level → ℕ → Call
  | .device, h => .disConnectDev (some h)
  | .application _, h => .closeApplication (some h)
  | .container _, h => .closeContainer h

/-- Every handle that was opened has later been closed, as far as the token closes it. -/
def ClosedAgain (level : Level) (t : List SkfEvent) : Prop :=
  ∀ a name h b, t = a ++ ⟨.openEntry level name, ⟨0, h⟩⟩ :: b → ∃ e ∈ b, e.1 = closing level h

/-- Something has been assigned to the caller's pointer: memory that is asked for once there is
a list is for the array. -/
def Assigned (level : Level) (t : List SkfEvent) : Prop :=
  ∃ a n ok b list, t = a ++ ⟨.malloc n, ok⟩ :: b ∧ Listed a level list

structure LeavesNothing (level : Level) (ph : Option ℕ) (t : List SkfEvent) (f : Found ℕ) :
    Prop where
  closed : ClosedAgain level t
  null : f.array = none ∧ (ph = none ∨ Assigned level t)

/-- There is no list: a call for it fails, it is too short, or there is no memory for it. -/
def ReadFails (level : Level) (t : List SkfEvent) : Prop :=
  (∃ room r, r.rv ≠ 0 ∧ (⟨.enum level room, r⟩ : SkfEvent) ∈ t) ∨
  (∃ r, r.list.length < 2 ∧ (⟨.enum level none, r⟩ : SkfEvent) ∈ t) ∨
  ∃ n, (⟨.malloc n, false⟩ : SkfEvent) ∈ t ∧ ∀ list, ¬ Listed t level list

def OpenFails (level : Level) (t : List SkfEvent) : Prop :=
  ∃ name r, r.rv ≠ 0 ∧ (⟨.openEntry level name, r⟩ : SkfEvent) ∈ t

def Opened (level : Level) (t : List SkfEvent) : Prop := ∃ name h, OpenedAs level t name h

/-- The replies with which nothing has to be closed or reset: no list only where the pointer
was NULL, and no handle refused, or at most the first of an application or container list. -/
structure NothingToClose (level : Level) (ph : Option ℕ) (t : List SkfEvent) : Prop where
  reading : ReadFails level t → ph = none
  opening : OpenFails level t → level ≠ .device ∧ ¬ Opened level t

structure ListingSpec (level : Level) (t : List SkfEvent) (o : Option (Found ℕ)) : Prop where
  closes : ∀ e ∈ t, ∀ h, e.1 ≠ closing level h
  read : ReadFails level t →
    (∃ rv, rv ≠ 0 ∧ o = some (stop rv)) ∧ ¬ Assigned level t ∧ ¬ Opened level t
  opening : OpenFails level t → Assigned level t ∧
    ∃ f, o = some f ∧ f.rv ≠ 0 ∧ (f.array = none ↔ level ≠ .device)
  other : ∀ f, o = some f → f.rv ≠ 0 → ¬ ReadFails level t → ¬ OpenFails level t →
    Assigned level t ∧ f.array = none ∧ ¬ Opened level t

section Events

variable {level : Level} {t u : List SkfEvent}

theorem openFails_append : OpenFails level (t ++ u) ↔ OpenFails level t ∨ OpenFails level u := by
  simp only [OpenFails, List.mem_append, and_or_left, exists_or]

theorem opened_append : Opened level (t ++ u) ↔ Opened level t ∨ Opened level u := by
  simp only [Opened, OpenedAs, List.mem_append, exists_or]

def ReadCall : Call → Prop
  | .malloc _ | .enum _ _ => True
  | _ => False

theorem read_calls_open_nothing (h : ∀ e ∈ t, ReadCall e.1) :
    ¬ Opened level t ∧ ¬ OpenFails level t := by
  constructor
  · rintro ⟨name, handle, hm⟩
    exact h _ hm
  · rintro ⟨name, r, hrv, hm⟩
    exact h _ hm

theorem not_assigned (h : ∀ list, ¬ Listed t level list) : ¬ Assigned level t := by
  rintro ⟨a, n, ok, b, list, rfl, hlisted⟩
  exact h list (listed_append.mpr (Or.inl hlisted))

theorem read_ok_behind {list : List UInt8} (hlisted : Listed t level list)
    (hok : ¬ ReadFails level t) (hu : ∀ e ∈ u, OpenCall level e.1) :
    ¬ ReadFails level (t ++ u) := by
  rintro (⟨room, r, hrv, hm⟩ | ⟨r, hlen, hm⟩ | ⟨n, -, hnone⟩)
  · rcases List.mem_append.mp hm with hm | hm
    · exact hok (Or.inl ⟨room, r, hrv, hm⟩)
    · exact hu _ hm
  · rcases List.mem_append.mp hm with hm | hm
    · exact hok (Or.inr (Or.inl ⟨r, hlen, hm⟩))
    · exact hu _ hm
  · exact hnone list (listed_append.mpr (Or.inl hlisted))

end Events

structure ReadEnd (level : Level) (t : List SkfEvent)
    (o : Option (Except UInt32 (List UInt8))) : Prop where
  calls : ∀ e ∈ t, ReadCall e.1
  fails : ReadFails level t ↔ ∃ rv, o = some (.error rv)

/-- Both calls have answered and the memory is there, whether or not the list fits into it. -/
theorem not_readFails_of_answers {level : Level} {r s : ListReply} {n : ℕ} {ok : Bool}
    (hrv : ¬ r.rv ≠ 0) (hlen : ¬ r.list.length < 2) (hok : ¬ ¬ ok = true) (hs : ¬ s.rv ≠ 0) :
    ¬ ReadFails level
      [⟨.enum level none, r⟩, ⟨.malloc n, ok⟩, ⟨.enum level (some n), s⟩] := by
  rintro (⟨room, r', hrv', hm⟩ | ⟨r', hlen', hm⟩ | ⟨n, hm, -⟩)
  · simp only [List.mem_cons, List.not_mem_nil, or_false] at hm
    rcases hm with hm | hm | hm
    · cases hm
      exact hrv hrv'
    · cases hm
    · cases hm
      exact hs hrv'
  · simp only [List.mem_cons, List.not_mem_nil, or_false] at hm
    rcases hm with hm | hm | hm
    · cases hm
      exact hlen hlen'
    · cases hm
    · cases hm
  · simp only [List.mem_cons, List.not_mem_nil, or_false] at hm
    rcases hm with hm | hm | hm
    · cases hm
    · cases hm
      exact hok Bool.false_ne_true
    · cases hm

theorem read_list_end (level : Level) : Holds (ReadEnd level) (readList level) := by
  refine holds_then fun r => ?_
  by_cases hrv : r.rv ≠ 0
  · rw [if_pos hrv]
    refine ⟨by simp [ReadCall], iff_of_true (Or.inl ⟨none, r, hrv, ?_⟩) ⟨r.rv, rfl⟩⟩
    exact List.mem_cons_self
  rw [if_neg hrv]
  by_cases hlen : r.list.length < 2
  · rw [if_pos hlen]
    refine ⟨by simp [ReadCall], iff_of_true (Or.inr (Or.inl ⟨r, hlen, ?_⟩)) ⟨-1, rfl⟩⟩
    exact List.mem_cons_self
  rw [if_neg hlen]
  refine holds_then fun ok => ?_
  by_cases hok : ¬ ok = true
  · rw [if_pos hok]
    obtain rfl : ok = false := Bool.eq_false_iff.mpr hok
    refine ⟨by simp [ReadCall], iff_of_true (Or.inr (Or.inr ⟨r.list.length, ?_, ?_⟩)) ⟨-1, rfl⟩⟩
    · exact List.mem_cons_of_mem _ (List.mem_singleton_self _)
    · simp [Listed]
  rw [if_neg hok]
  refine holds_then fun s => ?_
  by_cases hs : s.rv ≠ 0
  · rw [if_pos hs]
    refine ⟨by simp [ReadCall], iff_of_true (Or.inl ⟨some r.list.length, s, hs, ?_⟩) ⟨s.rv, rfl⟩⟩
    simp
  rw [if_neg hs]
  have hread : ¬ ReadFails level [⟨.enum level none, r⟩, ⟨.malloc r.list.length, ok⟩,
      ⟨.enum level (some r.list.length), s⟩] := not_readFails_of_answers hrv hlen hok hs
  by_cases hroom : r.list.length < s.list.length
  · rw [if_pos hroom]
    exact ⟨by simp [ReadCall], iff_of_false hread (by simp)⟩
  · rw [if_neg hroom]
    refine ⟨by simp [ReadCall], iff_of_false hread ?_⟩
    rintro ⟨rv, ⟨⟩⟩

structure OpensUntil {α ρ : Type} (level : Level) (t : List SkfEvent)
    (o : Option (Except ρ α)) : Prop where
  calls : ∀ e ∈ t, OpenCall level e.1
  fails : OpenFails level t ↔ ∃ e, o = some (.error e)

section Opening

variable {α ρ : Type} {level : Level} {list : List UInt8} {ns : List Name}

theorem open_entry_until (name : Name) (fail : UInt32 → ρ) :
    Holds (OpensUntil level) (openEntry level name >>= fun r =>
      if r.rv ≠ 0 then pure (.error (fail r.rv)) else pure (.ok r.handle)) := by
  refine holds_then fun r => ?_
  by_cases hrv : r.rv ≠ 0
  · rw [if_pos hrv]
    refine ⟨by simp [OpenCall], iff_of_true ⟨name, r, hrv, ?_⟩ ⟨fail r.rv, rfl⟩⟩
    exact List.mem_singleton_self _
  · rw [if_neg hrv]
    refine ⟨by simp [OpenCall], iff_of_false ?_ (by simp)⟩
    rintro ⟨name', r', hrv', hm⟩
    cases List.mem_singleton.mp hm
    exact hrv hrv'

theorem fill_array_until {step : ℕ} {entry : Name → OutArray α → Skf (Except ρ α)}
    (hstep : step ≤ 1) (hns : names list = some ns)
    (hentry : ∀ name array, Holds (OpensUntil level) (entry name array)) (size : ℕ) :
    Holds (OpensUntil level) (fillArray step entry list size) := by
  have hstart : (∀ e ∈ ([] : List SkfEvent), OpenCall level e.1) ∧ ¬ OpenFails level [] :=
    ⟨by simp, by simp [OpenFails]⟩
  rw [fillArray, walk_names hstep hns]
  refine holds_mono ?_ (holds_iterate (t := [])
    (I := fun _ t _ => (∀ e ∈ t, OpenCall level e.1) ∧ ¬ OpenFails level t)
    (E := fun t o => (∀ e ∈ t, OpenCall level e.1) ∧ (OpenFails level t ↔ o ≠ none)) ?_ hstart)
  · intro t o hend
    rw [List.nil_append] at hend
    cases o with
    | none => exact ⟨hend.1, hend.2.trans (by simp)⟩
    | some r =>
      cases r with
      | error e => exact ⟨hend.1, hend.2.trans (by simp)⟩
      | ok array => exact ⟨hend.1, iff_of_false hend.2 (by simp)⟩
  · rintro name rest t array ⟨hcalls, hno⟩
    apply holds_proceed (hentry name array)
    · intro u hu
      refine ⟨calls_append hcalls hu.calls, ?_⟩
      rw [openFails_append, or_iff_right hno, hu.fails]
      simp
    · intro u e hu
      refine ⟨calls_append hcalls hu.calls, ?_⟩
      rw [openFails_append, or_iff_right hno, hu.fails]
      simp
    · intro u a hu
      have hopen : ¬ OpenFails level (t ++ (u ++ [])) := by
        rw [List.append_nil, openFails_append, or_iff_right hno, hu.fails]
        simp
      have hall : ∀ e ∈ t ++ (u ++ []), OpenCall level e.1 := by
        rw [List.append_nil]
        exact calls_append hcalls hu.calls
      unfold storeNext
      cases array.store a with
      | none => exact ⟨hall, iff_of_false hopen (by simp)⟩
      | some b => exact ⟨hall, hopen⟩

structure FillEnd (level : Level) (u : List SkfEvent) (o : Option (Found ℕ)) : Prop where
  calls : ∀ e ∈ u, OpenCall level e.1
  start : ∃ n ok v, u = ⟨.malloc n, ok⟩ :: v
  opening : OpenFails level u → ∃ f, o = some f ∧ f.rv ≠ 0 ∧ (f.array = none ↔ level ≠ .device)
  other : ∀ f, o = some f → f.rv ≠ 0 → ¬ OpenFails level u → f.array = none ∧ ¬ Opened level u

theorem allocate_end {Bad : ρ → Prop} {step : ℕ} {entry : Name → OutArray ℕ → Skf (Except ρ ℕ)}
    {finish : Except ρ (OutArray ℕ) → Skf (Found ℕ)} (hstep : step ≤ 1)
    (hns : names list = some ns)
    (hentry : ∀ name array, Holds (EntrySpec level (OpenedAs level) Bad name) (entry name array))
    (huntil : ∀ name array, Holds (OpensUntil level) (entry name array))
    (herror : ∀ e, Bad e → ∃ f, finish (.error e) = ret f ∧ f.rv ≠ 0 ∧
      (f.array = none ↔ level ≠ .device))
    (hok : ∀ array, ∃ f, finish (.ok array) = ret f ∧ f.rv = 0) :
    Holds (FillEnd level) (malloc ns.length >>= fun ok =>
      if ¬ ok then pure (stop (-1)) else fillArray step entry list ns.length >>= finish) := by
  refine holds_then fun ok => ?_
  have hstart : OpenCall level (.malloc ns.length) := trivial
  have hmalloc : ∀ v, OpenFails level (⟨.malloc ns.length, ok⟩ :: v) ↔ OpenFails level v := by
    simp [OpenFails]
  by_cases halloc : ¬ ok = true
  · rw [if_pos halloc]
    refine ⟨List.forall_mem_singleton.mpr hstart, ⟨_, ok, [], rfl⟩, ?_, ?_⟩
    · rintro ⟨name, r, -, hm⟩
      cases List.mem_singleton.mp hm
    · rintro f ⟨⟩ - -
      exact ⟨rfl, by simp [Opened, OpenedAs]⟩
  rw [if_neg halloc]
  have hfill := holds_and (fill_array_spec hstep hns opened_as_mono hentry)
    (fill_array_until hstep hns huntil ns.length)
  apply holds_bind hfill
  · rintro u ⟨hspec, huntil⟩
    refine ⟨List.forall_mem_cons.mpr ⟨hstart, hspec.calls⟩, ⟨_, ok, u, rfl⟩, ?_, by simp⟩
    rw [hmalloc, huntil.fails]
    simp
  · rintro u out ⟨hspec, huntil⟩
    have hcalls : ∀ e ∈ ⟨.malloc ns.length, ok⟩ :: (u ++ []), OpenCall level e.1 := by
      rw [List.append_nil]
      exact List.forall_mem_cons.mpr ⟨hstart, hspec.calls⟩
    have hfails : OpenFails level (⟨.malloc ns.length, ok⟩ :: (u ++ [])) ↔
        ∃ e, some out = some (.error e) := by
      rw [hmalloc, List.append_nil, huntil.fails]
    cases out with
    | error e =>
      obtain ⟨f, hf, hrv, harray⟩ := herror e (hspec.error e rfl)
      rw [hf]
      refine ⟨hcalls, ⟨_, ok, _, rfl⟩, fun _ => ⟨f, rfl, hrv, harray⟩, ?_⟩
      exact fun _ _ _ hno => absurd (hfails.mpr ⟨e, rfl⟩) hno
    | ok array =>
      obtain ⟨f, hf, hzero⟩ := hok array
      rw [hf]
      refine ⟨hcalls, ⟨_, ok, _, rfl⟩, fun h => ?_, ?_⟩
      · obtain ⟨e, ⟨⟩⟩ := hfails.mp h
      · rintro f' ⟨⟩ hrv
        exact absurd hzero hrv

end Opening

section Listings

variable {level : Level} {t u : List SkfEvent} {list : List UInt8} {ns : List Name}

theorem entry_closes_nothing (hcalls : ∀ e ∈ t, EntryCall level e.1) :
    ∀ e ∈ t, ∀ h, e.1 ≠ closing level h := by
  intro e he h hclosing
  have hcall := hcalls e he
  rw [hclosing] at hcall
  cases level <;> exact hcall

theorem listing_without_opens {r : Option (Except UInt32 (List UInt8))} {o : Option (Found ℕ)}
    (hread : ReadSpec level t r) (hend : ReadEnd level t r)
    (ho : ∀ f, o = some f → f.rv ≠ 0 → ReadFails level t)
    (herror : ∀ rv, r = some (.error rv) → o = some (stop rv)) : ListingSpec level t o := by
  obtain ⟨hopened, hrefused⟩ : ¬ Opened level t ∧ ¬ OpenFails level t :=
    read_calls_open_nothing hend.calls
  refine ⟨entry_closes_nothing hread.calls, fun hfails => ?_, fun h => absurd h hrefused, ?_⟩
  · obtain ⟨rv, rfl⟩ := hend.fails.mp hfails
    refine ⟨⟨rv, hread.error rv rfl, herror rv rfl⟩, not_assigned fun list hlisted => ?_, hopened⟩
    obtain ⟨-, ⟨⟩⟩ := (hread.listed level list).mp hlisted
  · exact fun f hf hrv hno => absurd (ho f hf hrv) hno

theorem listing_with_opens {o : Option (Found ℕ)} (hread : ReadSpec level t (some (.ok list)))
    (hend : ReadEnd level t (some (.ok list))) (hfill : FillEnd level u o) :
    ListingSpec level (t ++ u) o := by
  have hlisted : Listed t level list := (hread.listed level list).mpr ⟨rfl, rfl⟩
  have hok : ¬ ReadFails level t := by
    rw [hend.fails]
    simp
  have hassigned : Assigned level (t ++ u) := by
    obtain ⟨n, ok, v, rfl⟩ := hfill.start
    exact ⟨t, n, ok, v, list, rfl, hlisted⟩
  obtain ⟨hopened, hrefused⟩ : ¬ Opened level t ∧ ¬ OpenFails level t :=
    read_calls_open_nothing hend.calls
  have hrefuse : OpenFails level (t ++ u) ↔ OpenFails level u := by
    rw [openFails_append, or_iff_right hrefused]
  refine ⟨?_, fun h => ?_, fun h => ?_, ?_⟩
  · exact entry_closes_nothing (entry_calls_append hread.calls hfill.calls)
  · exact absurd h (read_ok_behind hlisted hok hfill.calls)
  · exact ⟨hassigned, hfill.opening (hrefuse.mp h)⟩
  · intro f hf hrv _ hno
    obtain ⟨harray, hnone⟩ := hfill.other f hf hrv fun h => hno (hrefuse.mpr h)
    refine ⟨hassigned, harray, ?_⟩
    rw [opened_append]
    exact fun h => h.elim hopened hnone

theorem get_entries_listing (hlevel : level ≠ .device) :
    Holds (ListingSpec level) (getEntries level (openHandle level)) := by
  apply get_entries_holds (holds_and (read_list_spec level) (read_list_end level))
  · exact fun t ⟨hread, hend⟩ => listing_without_opens hread hend (by simp) (by simp)
  · rintro t rv ⟨hread, hend⟩
    refine listing_without_opens hread hend (fun _ _ _ => hend.fails.mpr ⟨rv, rfl⟩) ?_
    rintro rv' ⟨⟩
    rfl
  · rintro t list ⟨hread, hend⟩ -
    exact listing_without_opens hread hend (by simp) (by simp)
  · rintro t list ⟨hread, hend⟩ -
    refine listing_without_opens hread hend ?_ (by simp)
    rintro f ⟨⟩ hrv
    exact absurd rfl hrv
  · rintro t list ns ⟨hread, hend⟩ hns -
    refine holds_mono (fun u o hu => listing_with_opens hread hend hu) ?_
    apply allocate_end (Nat.le_refl 1) hns open_handle_spec fun name array =>
      open_entry_until name id
    · exact fun rv hrv => ⟨stop rv, rfl, hrv, iff_of_true rfl hlevel⟩
    · exact fun array => ⟨_, rfl, rfl⟩

theorem get_devices_listing : Holds (ListingSpec .device) getDevices := by
  apply get_devices_holds (holds_and (read_list_spec .device) (read_list_end .device))
  · exact fun t ⟨hread, hend⟩ => listing_without_opens hread hend (by simp) (by simp)
  · rintro t rv ⟨hread, hend⟩
    refine listing_without_opens hread hend (fun _ _ _ => hend.fails.mpr ⟨rv, rfl⟩) ?_
    rintro rv' ⟨⟩
    rfl
  · rintro t list ⟨hread, hend⟩ -
    exact listing_without_opens hread hend (by simp) (by simp)
  · rintro t list ns ⟨hread, hend⟩ hns
    refine holds_mono (fun u o hu => listing_with_opens hread hend hu) ?_
    apply allocate_end (Nat.zero_le 1) hns connect_dev_spec fun name array =>
      open_entry_until name fun rv => (rv, array)
    · exact fun e he => ⟨_, rfl, he, iff_of_false (by simp) (by simp)⟩
    · exact fun array => ⟨_, rfl, rfl⟩

/-- Where nothing is closed, only handles that were never opened are not left open. -/
theorem closed_again_iff (hcloses : ∀ e ∈ t, ∀ h, e.1 ≠ closing level h) :
    ClosedAgain level t ↔ ¬ Opened level t := by
  constructor
  · rintro hclosed ⟨name, h, hm⟩
    obtain ⟨a, b, rfl⟩ := List.append_of_mem hm
    obtain ⟨e, he, hclosing⟩ := hclosed a name h b rfl
    exact hcloses e (List.mem_append_right a (List.mem_cons_of_mem _ he)) h hclosing
  · rintro hno a name h b rfl
    exact absurd ⟨name, h, List.mem_append_right a List.mem_cons_self⟩ hno

/-- A listing that ends with an error leaves nothing behind just where the replies leave
nothing to do about it. -/
theorem leaves_nothing_iff {o : Option (Found ℕ)} (h : ListingSpec level t o) (ph : Option ℕ) :
    (∀ f, o = some f → f.rv ≠ 0 → LeavesNothing level ph t f) ↔ NothingToClose level ph t := by
  constructor
  · intro hclean
    constructor
    · intro hread
      obtain ⟨⟨rv, hrv, rfl⟩, hassigned, -⟩ := h.read hread
      exact (hclean (stop rv) rfl hrv).null.2.resolve_right hassigned
    · intro hopen
      obtain ⟨-, f, rfl, hrv, harray⟩ := h.opening hopen
      obtain ⟨hclosed, hnone, -⟩ := hclean f rfl hrv
      exact ⟨harray.mp hnone, (closed_again_iff h.closes).mp hclosed⟩
  · intro hreplies f hf hrv
    by_cases hread : ReadFails level t
    · obtain ⟨⟨rv, -, hstop⟩, -, hopened⟩ := h.read hread
      cases hf.symm.trans hstop
      exact ⟨(closed_again_iff h.closes).mpr hopened, rfl, Or.inl (hreplies.reading hread)⟩
    by_cases hopen : OpenFails level t
    · obtain ⟨hlevel, hopened⟩ := hreplies.opening hopen
      obtain ⟨hassigned, f', hf', -, harray⟩ := h.opening hopen
      cases hf.symm.trans hf'
      exact ⟨(closed_again_iff h.closes).mpr hopened, harray.mpr hlevel, Or.inr hassigned⟩
    · obtain ⟨hassigned, harray, hopened⟩ := h.other f hf hrv hread hopen
      exact ⟨(closed_again_iff h.closes).mpr hopened, harray, Or.inr hassigned⟩

section Load

variable (hload : ∀ e ∈ t, LoadCall e.1)
include hload

theorem read_fails_behind_load : ReadFails level (t ++ u) ↔ ReadFails level u := by
  constructor
  · rintro (⟨room, r, hrv, hm⟩ | ⟨r, hlen, hm⟩ | ⟨n, hm, hno⟩)
    · exact Or.inl ⟨room, r, hrv, (List.mem_append.mp hm).resolve_left fun hm => hload _ hm⟩
    · exact Or.inr (Or.inl ⟨r, hlen, (List.mem_append.mp hm).resolve_left fun hm => hload _ hm⟩)
    · refine Or.inr (Or.inr ⟨n, (List.mem_append.mp hm).resolve_left fun hm => hload _ hm, ?_⟩)
      exact fun list hlisted => hno list (listed_append.mpr (Or.inr hlisted))
  · rintro (⟨room, r, hrv, hm⟩ | ⟨r, hlen, hm⟩ | ⟨n, hm, hno⟩)
    · exact Or.inl ⟨room, r, hrv, List.mem_append_right t hm⟩
    · exact Or.inr (Or.inl ⟨r, hlen, List.mem_append_right t hm⟩)
    · refine Or.inr (Or.inr ⟨n, List.mem_append_right t hm, fun list hlisted => ?_⟩)
      exact hno list ((listed_append.mp hlisted).resolve_left (load_not_listed hload))

theorem assigned_behind_load : Assigned level (t ++ u) ↔ Assigned level u := by
  constructor
  · rintro ⟨a, n, ok, b, list, heq, hlisted⟩
    rcases List.append_eq_append_iff.mp heq with ⟨a', rfl, htail⟩ | ⟨b', rfl, htail⟩
    · refine ⟨a', n, ok, b, list, htail, ?_⟩
      exact (listed_append.mp hlisted).resolve_left (load_not_listed hload)
    · exact absurd hlisted (load_not_listed fun e he => hload e (List.mem_append_left b' he))
  · rintro ⟨a, n, ok, b, list, rfl, hlisted⟩
    exact ⟨t ++ a, n, ok, b, list, (List.append_assoc t a _).symm,
      listed_append.mpr (Or.inr hlisted)⟩

theorem opened_behind_load : Opened level (t ++ u) ↔ Opened level u := by
  rw [opened_append, or_iff_right]
  rintro ⟨name, handle, hm⟩
  exact hload _ hm

theorem open_fails_behind_load : OpenFails level (t ++ u) ↔ OpenFails level u := by
  rw [openFails_append, or_iff_right]
  rintro ⟨name, r, -, hm⟩
  exact hload _ hm

theorem ListingSpec.behind_load {o : Option (Found ℕ)} (h : ListingSpec level u o) :
    ListingSpec level (t ++ u) o := by
  constructor
  · intro e he handle hclosing
    rcases List.mem_append.mp he with he | he
    · have hcall := hload e he
      rw [hclosing] at hcall
      cases level <;> exact hcall
    · exact h.closes e he handle hclosing
  · rw [read_fails_behind_load hload, assigned_behind_load hload, opened_behind_load hload]
    exact h.read
  · rw [open_fails_behind_load hload, assigned_behind_load hload]
    exact h.opening
  · rw [read_fails_behind_load hload, open_fails_behind_load hload, assigned_behind_load hload,
      opened_behind_load hload]
    exact h.other

theorem load_listing {o : Option (Found ℕ)}
    (ho : ∀ f, o = some f → f.rv = 0) : ListingSpec level t o := by
  have hnone : ListingSpec level [] o := by
    constructor
    · simp
    · simp [ReadFails]
    · simp [OpenFails]
    · exact fun f hf hrv => absurd (ho f hf) hrv
  have hend := hnone.behind_load hload
  rwa [List.append_nil] at hend

end Load

theorem use_api_listing {body : Skf (Found ℕ)} (hbody : Holds (ListingSpec level) body)
    (api : Bool) :
    Holds (fun t o => ListingSpec level t (o.map Prod.snd)) (useApi api (stop 0) body) := by
  refine holds_mono (fun t o h => ?_) (use_api_spec api (stop 0) hbody)
  cases h with
  | message _ hcalls =>
    apply load_listing hcalls
    rintro f ⟨⟩
    rfl
  | lost _ hcalls => exact load_listing hcalls (by simp)
  | used hcalls hno hkept hload hspec =>
    rename_i t u o
    rw [Option.map_map]
    have hsame : o.map (Prod.snd ∘ Prod.mk true) = o := Option.map_id'
    rw [hsame]
    exact hspec.behind_load hcalls

theorem open_handles_listing (level : Level) (api : Bool) :
    Holds (fun t o => ListingSpec level t (o.map Prod.snd)) (openHandles level api) := by
  cases level with
  | device => exact use_api_listing get_devices_listing api
  | application hDev => exact use_api_listing (get_entries_listing (by simp)) api
  | container hApp => exact use_api_listing (get_entries_listing (by simp)) api

end Listings

/-- A listing that returns an error has closed what it opened and left NULL in the caller's
pointer exactly where no list could be read into a NULL pointer only, and where no entry was
refused, unless it was the first of an application or container list. -/
theorem failed_listing_leaves_nothing_iff (level : Level) (ph : Option ℕ) (api : Bool) :
    Holds (fun t o =>
      (∀ api f, o = some (api, f) → f.rv ≠ 0 → LeavesNothing level ph t f) ↔
        NothingToClose level ph t) (openHandles level api) := by
  refine holds_mono (fun t o h => ?_) (open_handles_listing level api)
  rw [← leaves_nothing_iff h ph]
  constructor
  · intro hclean f hf
    obtain ⟨⟨api, f⟩, rfl, rfl⟩ := Option.map_eq_some_iff.mp hf
    exact hclean api f rfl
  · rintro hclean api f rfl
    exact hclean f rfl

/-- A token with the applications "A" and "B", of which it opens the first only. -/
def oneOfTwo (hist : List SkfEvent) : (c : Call) → Reply c
  | .enum _ _ => (⟨0, [65, 0, 66, 0, 0]⟩ : ListReply)
  | .openEntry _ name => (if name = [65] then ⟨0, 7⟩ else ⟨sarFail, 0⟩ : HandleReply)
  | c => emptyToken true hist c

/-- The handle of the first application is lost when the second is refused. -/
theorem first_application_left_open : ¬ ∀ api f,
    (run oneOfTwo [] (openHandles (.application (some 1)) true)).2 = some (api, f) → f.rv ≠ 0 →
      LeavesNothing (.application (some 1)) none
        (run oneOfTwo [] (openHandles (.application (some 1)) true)).1 f := by
  have hspec := holds_run (open_handles_listing (.application (some 1)) true) oneOfTwo []
  have hend : (run oneOfTwo [] (openHandles (.application (some 1)) true)).2 =
      some (true, stop sarFail) := rfl
  have hopened : Opened (.application (some 1))
      (run oneOfTwo [] (openHandles (.application (some 1)) true)).1 :=
    ⟨[65], 7, List.mem_of_getElem? (i := 4) rfl⟩
  intro hclean
  exact (closed_again_iff hspec.closes).mp (hclean true _ hend (by decide)).closed hopened

end SkfCleanup
