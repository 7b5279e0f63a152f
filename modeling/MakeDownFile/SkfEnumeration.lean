import MakeDownFile.SkfApi
import Mathlib.Data.List.Forall2

/-! # Listing and opening what a token holds

GetAppHandles, GetContainerHandles and GetContainerNames are one function of what they list
and how they fill their arrays; GetDevHandles differs from it. -/
namespace SkfEnumeration

open CallPrograms
open CallPrograms.Prog
open NameLists
open SkfApi

structure OutArray (α : Type) where
  size : ℕ
  cells : List α
  cells_le : cells.length ≤ size

/-- The code returned, and what has become of the two output arguments. -/
structure Found (α : Type) where
  rv : UInt32
  array : Option (OutArray α)
  count : Option ℕ

variable {α ρ : Type}

def OutArray.empty (size : ℕ) : OutArray α := ⟨size, [], Nat.zero_le size⟩

def OutArray.store (a : OutArray α) (x : α) : Option (OutArray α) :=
  if h : a.cells.length < a.size then
    some ⟨a.size, a.cells ++ [x], by rwa [List.length_append]⟩
  else none

/-- A write behind the end of the array is undefined. -/
def storeNext (a : OutArray α) (x : α) : Skf (Except ρ (OutArray α)) :=
  match a.store x with
  | none => fault
  | some a => ret (.ok a)

def stop (rv : UInt32) : Found α := ⟨rv, none, none⟩

def malloc (size : ℕ) : Skf Bool := .call (.malloc size) ret
def enum (level : Level) (room : Option ℕ) : Skf ListReply := .call (.enum level room) ret
def openEntry (level : Level) (name : Name) : Skf HandleReply := .call (.openEntry level name) ret

/-- The two calls that list a level. A list longer than the room for it overruns that room. -/
def readList (level : Level) : Skf (Except UInt32 (List UInt8)) := do
  let r ← enum level none
  if r.rv ≠ 0 then pure (.error r.rv)
  else if r.list.length < 2 then pure (.error (-1))
  else
    let ok ← malloc r.list.length
    if ¬ ok then pure (.error (-1))
    else
      let s ← enum level (some r.list.length)
      if s.rv ≠ 0 then pure (.error s.rv)
      else if r.list.length < s.list.length then fault
      else pure (.ok s.list)

def fillArray (step : ℕ) (entry : Name → OutArray α → Skf (Except ρ α)) (list : List UInt8)
    (size : ℕ) : Skf (Except ρ (OutArray α)) :=
  walkNames step (fun name array => (entry name array).proceed (storeNext array)) 0 list
    (OutArray.empty size)

/-- An empty array is not allocated, and when an entry fails the array is freed. -/
def getEntries (level : Level) (entry : Name → OutArray α → Skf (Except UInt32 α)) :
    Skf (Found α) := do
  let list ← readList level
  match list with
  | .error rv => pure (stop rv)
  | .ok list =>
    match countNames 1 0 list 0 with
    | none => fault
    | some 0 => pure (stop 0)
    | some (num + 1) =>
      let ok ← malloc (num + 1)
      if ¬ ok then pure (stop (-1))
      else
        let out ← fillArray 1 entry list (num + 1)
        match out with
        | .error rv => pure (stop rv)
        | .ok array => pure ⟨0, some array, some (num + 1)⟩

def openHandle (level : Level) (name : Name) (_array : OutArray ℕ) : Skf (Except UInt32 ℕ) := do
  let r ← openEntry level name
  if r.rv ≠ 0 then pure (.error r.rv)
  else pure (.ok r.handle)

def copyName (name : Name) (_array : OutArray Name) : Skf (Except UInt32 Name) := do
  let ok ← malloc (name.length + 1)
  if ¬ ok then pure (.error (-1))
  else pure (.ok name)

def getAppHandles (hDev : Option ℕ) (api : Bool) : Skf (Bool × Found ℕ) :=
  useApi api (stop 0) (getEntries (.application hDev) (openHandle (.application hDev)))

def getContainerHandles (hApp : Option ℕ) (api : Bool) : Skf (Bool × Found ℕ) :=
  useApi api (stop 0) (getEntries (.container hApp) (openHandle (.container hApp)))

def getContainerNames (hApp : Option ℕ) (api : Bool) : Skf (Bool × Found Name) :=
  useApi api (stop 0) (getEntries (.container hApp) copyName)

/-- A device that cannot be connected leaves the array behind. -/
def connectDev (name : Name) (array : OutArray ℕ) : Skf (Except (UInt32 × OutArray ℕ) ℕ) := do
  let r ← openEntry .device name
  if r.rv ≠ 0 then pure (.error (r.rv, array))
  else pure (.ok r.handle)

/-- An empty list is no exception here, and what is counted are the devices connected. -/
def getDevices : Skf (Found ℕ) := do
  let list ← readList .device
  match list with
  | .error rv => pure (stop rv)
  | .ok list =>
    match countNames 0 0 list 0 with
    | none => fault
    | some size =>
      let ok ← malloc size
      if ¬ ok then pure (stop (-1))
      else
        let out ← fillArray 0 connectDev list size
        match out with
        | .error (rv, array) => pure ⟨rv, some array, none⟩
        | .ok array => pure ⟨0, some array, some array.cells.length⟩

def getDevHandles (api : Bool) : Skf (Bool × Found ℕ) := useApi api (stop 0) getDevices

def EntryCall (level : Level) : Call → Prop
  | .malloc _ => True
  | .enum l _ => l = level
  | .openEntry l _ => l = level
  | _ => False

def OpenCall (level : Level) : Call → Prop
  | .malloc _ => True
  | .openEntry l _ => l = level
  | _ => False

/-- The token has listed the level, within the room for the list. -/
def Listed (t : List SkfEvent) (level : Level) (list : List UInt8) : Prop :=
  ∃ room, (⟨.enum level (some room), ⟨0, list⟩⟩ : SkfEvent) ∈ t ∧ list.length ≤ room

section Lists

variable {level : Level} {t u : List SkfEvent} {list : List UInt8}

theorem listed_append : Listed (t ++ u) level list ↔ Listed t level list ∨ Listed u level list := by
  constructor
  · rintro ⟨room, hm, hroom⟩
    rcases List.mem_append.mp hm with hm | hm
    · exact Or.inl ⟨room, hm, hroom⟩
    · exact Or.inr ⟨room, hm, hroom⟩
  · rintro (⟨room, hm, hroom⟩ | ⟨room, hm, hroom⟩)
    · exact ⟨room, List.mem_append_left _ hm, hroom⟩
    · exact ⟨room, List.mem_append_right _ hm, hroom⟩

theorem not_listed_of_open (h : ∀ e ∈ t, OpenCall level e.1) {l : Level} :
    ¬ Listed t l list := by
  rintro ⟨room, hm, -⟩
  exact h _ hm

theorem OpenCall.entry {c : Call} (h : OpenCall level c) : EntryCall level c := by
  cases c <;> first | exact h | exact h.elim

end Lists

structure ReadSpec (level : Level) (t : List SkfEvent)
    (o : Option (Except UInt32 (List UInt8))) : Prop where
  calls : ∀ e ∈ t, EntryCall level e.1
  listed : ∀ l list, Listed t l list ↔ l = level ∧ o = some (.ok list)
  error : ∀ rv, o = some (.error rv) → rv ≠ 0

/-- Only the second call of a listing can list anything. -/
theorem listed_calls {level l : Level} {n : ℕ} {r s : ListReply} {ok : Bool} {list : List UInt8} :
    Listed [⟨.enum level none, r⟩, ⟨.malloc n, ok⟩, ⟨.enum level (some n), s⟩] l list ↔
      l = level ∧ s = ⟨0, list⟩ ∧ list.length ≤ n := by
  constructor
  · rintro ⟨room, hm, hroom⟩
    simp only [List.mem_cons, List.not_mem_nil, or_false] at hm
    rcases hm with hm | hm | hm
    · cases hm
    · cases hm
    · cases hm
      exact ⟨rfl, rfl, hroom⟩
  · rintro ⟨rfl, rfl, hroom⟩
    exact ⟨n, by simp, hroom⟩

theorem read_fails {level : Level} {t : List SkfEvent} {rv : UInt32} (hrv : rv ≠ 0)
    (hcalls : ∀ e ∈ t, EntryCall level e.1) (hno : ∀ l list, ¬ Listed t l list) :
    ReadSpec level t (some (.error rv)) := by
  refine ⟨hcalls, fun l list => iff_of_false (hno l list) ?_, ?_⟩
  · rintro ⟨-, ⟨⟩⟩
  · rintro rv' ⟨⟩
    exact hrv

theorem read_list_spec (level : Level) : Holds (ReadSpec level) (readList level) := by
  have hneg : (-1 : UInt32) ≠ 0 := by decide
  refine holds_then fun r => ?_
  by_cases hrv : r.rv ≠ 0
  · rw [if_pos hrv]
    exact read_fails hrv (by simp [EntryCall]) (by simp [Listed])
  rw [if_neg hrv]
  by_cases hlen : r.list.length < 2
  · rw [if_pos hlen]
    exact read_fails hneg (by simp [EntryCall]) (by simp [Listed])
  rw [if_neg hlen]
  refine holds_then fun ok => ?_
  by_cases hok : ¬ ok = true
  · rw [if_pos hok]
    exact read_fails hneg (by simp [EntryCall]) (by simp [Listed])
  rw [if_neg hok]
  refine holds_then fun s => ?_
  have hcalls : ∀ e ∈ ([⟨.enum level none, r⟩, ⟨.malloc r.list.length, ok⟩,
      ⟨.enum level (some r.list.length), s⟩] : List SkfEvent), EntryCall level e.1 := by
    simp [EntryCall]
  by_cases hs : s.rv ≠ 0
  · rw [if_pos hs]
    refine read_fails hs hcalls fun l list hlisted => ?_
    obtain ⟨-, rfl, -⟩ := listed_calls.mp hlisted
    exact hs rfl
  rw [if_neg hs]
  by_cases hroom : r.list.length < s.list.length
  · rw [if_pos hroom]
    refine ⟨hcalls, fun l list => listed_calls.trans (iff_of_false ?_ ?_), ?_⟩
    · rintro ⟨-, rfl, hle⟩
      exact absurd hle (Nat.not_le.mpr hroom)
    · rintro ⟨-, ⟨⟩⟩
    · rintro rv ⟨⟩
  · rw [if_neg hroom]
    refine ⟨hcalls, fun l list => listed_calls.trans ?_, ?_⟩
    · constructor
      · rintro ⟨hl, rfl, -⟩
        exact ⟨hl, rfl⟩
      · rintro ⟨hl, ⟨⟩⟩
        have hzero : s.rv = 0 := not_not.mp hs
        exact ⟨hl, by rw [← hzero], Nat.le_of_not_lt hroom⟩
    · rintro rv ⟨⟩

theorem store_cells {a b : OutArray α} {x : α} (h : a.store x = some b) :
    b.size = a.size ∧ b.cells = a.cells ++ [x] := by
  unfold OutArray.store at h
  split at h
  · cases h
    exact ⟨rfl, rfl⟩
  · cases h

/-- What making an entry does: `Item` relates the calls, the name and the entry, and `Bad`
holds of what it ends with otherwise. -/
structure EntrySpec (level : Level) (Item : List SkfEvent → Name → α → Prop) (Bad : ρ → Prop)
    (name : Name) (t : List SkfEvent) (o : Option (Except ρ α)) : Prop where
  calls : ∀ e ∈ t, OpenCall level e.1
  entry : ∀ a, o = some (.ok a) → Item t name a
  error : ∀ e, o = some (.error e) → Bad e

structure FillSpec (level : Level) (Item : List SkfEvent → Name → α → Prop) (Bad : ρ → Prop)
    (ns : List Name) (t : List SkfEvent) (o : Option (Except ρ (OutArray α))) : Prop where
  calls : ∀ e ∈ t, OpenCall level e.1
  filled : ∀ array, o = some (.ok array) →
    array.size = ns.length ∧ List.Forall₂ (Item t) ns array.cells
  error : ∀ e, o = some (.error e) → Bad e

/-- In the middle of the loop the cells written belong to the names behind it. -/
structure FillInv (level : Level) (Item : List SkfEvent → Name → α → Prop) (ns rest : List Name)
    (t : List SkfEvent) (array : OutArray α) : Prop where
  calls : ∀ e ∈ t, OpenCall level e.1
  size_eq : array.size = ns.length
  done : ∃ seen, ns = seen ++ rest ∧ List.Forall₂ (Item t) seen array.cells

section Fill

variable {level : Level} {Item : List SkfEvent → Name → α → Prop} {Bad : ρ → Prop}
  {entry : Name → OutArray α → Skf (Except ρ α)} {ns rest : List Name} {name : Name}
  {t u : List SkfEvent} {array : OutArray α}

theorem calls_append (ht : ∀ e ∈ t, OpenCall level e.1) (hu : ∀ e ∈ u, OpenCall level e.1) :
    ∀ e ∈ t ++ u, OpenCall level e.1 := by
  intro e he
  rcases List.mem_append.mp he with he | he
  · exact ht e he
  · exact hu e he

theorem fill_inv_step (hmono : ∀ t u name a, t ⊆ u → Item t name a → Item u name a)
    (h : FillInv level Item ns (name :: rest) t array) {o : Option (Except ρ α)}
    (hspec : EntrySpec level Item Bad name u o) {a : α} (ho : o = some (.ok a)) {b : OutArray α}
    (hstore : array.store a = some b) : FillInv level Item ns rest (t ++ u) b := by
  obtain ⟨hsize, hcells⟩ := store_cells hstore
  obtain ⟨seen, rfl, hseen⟩ := h.done
  refine ⟨calls_append h.calls hspec.calls, hsize.trans h.size_eq, seen ++ [name], ?_, ?_⟩
  · rw [List.append_assoc, List.singleton_append]
  · rw [hcells]
    refine List.rel_append ?_ ?_
    · exact hseen.imp fun n x hx => hmono t (t ++ u) n x (List.subset_append_left t u) hx
    · exact .cons (hmono u (t ++ u) name a (List.subset_append_right t u) (hspec.entry a ho)) .nil

theorem fill_array_spec {step : ℕ} {list : List UInt8} (hstep : step ≤ 1)
    (hlist : names list = some ns)
    (hmono : ∀ t u name a, t ⊆ u → Item t name a → Item u name a)
    (hentry : ∀ name array, Holds (EntrySpec level Item Bad name) (entry name array)) :
    Holds (FillSpec level Item Bad ns) (fillArray step entry list ns.length) := by
  have hstart : FillInv level Item ns ns [] (OutArray.empty ns.length) :=
    ⟨by simp, rfl, [], rfl, .nil⟩
  rw [fillArray, walk_names hstep hlist]
  refine holds_mono ?_ (holds_iterate (I := FillInv level Item ns)
    (E := fun t o => (∀ e ∈ t, OpenCall level e.1) ∧ ∀ e, o = some e → Bad e) ?_ hstart)
  · intro t o hend
    rw [List.nil_append] at hend
    match o, hend with
    | none, hend => exact ⟨hend.1, by simp, by simp⟩
    | some (.error e), hend =>
      refine ⟨hend.1, by simp, ?_⟩
      rintro e' ⟨⟩
      exact hend.2 e rfl
    | some (.ok array), hend =>
      obtain ⟨seen, hseen, hcells⟩ := hend.done
      rw [List.append_nil] at hseen
      refine ⟨hend.calls, ?_, by simp⟩
      rintro a ⟨⟩
      exact ⟨hend.size_eq, hseen ▸ hcells⟩
  · intro name rest t array hinv
    apply holds_proceed (hentry name array)
    · intro u hu
      exact ⟨calls_append hinv.calls hu.calls, by simp⟩
    · intro u e hu
      refine ⟨calls_append hinv.calls hu.calls, ?_⟩
      rintro e' ⟨⟩
      exact hu.error e rfl
    · intro u a hu
      unfold storeNext
      cases hstore : array.store a with
      | none =>
        refine ⟨?_, by simp⟩
        rw [List.append_nil]
        exact calls_append hinv.calls hu.calls
      | some b =>
        show FillInv level Item ns rest (t ++ (u ++ [])) b
        rw [List.append_nil]
        exact fill_inv_step hmono hinv hu rfl hstore

end Fill

def Complete (level : Level) (Item : List SkfEvent → Name → α → Prop) (t : List SkfEvent)
    (f : Found α) : Prop :=
  ∃ list ns array, Listed t level list ∧ names list = some ns ∧ f.array = some array ∧
    f.count = some ns.length ∧ array.size = ns.length ∧ List.Forall₂ (Item t) ns array.cells

/-- A list without names is the one reason to return 0 with neither output. -/
structure EntriesSpec (level : Level) (Item : List SkfEvent → Name → α → Prop)
    (t : List SkfEvent) (o : Option (Found α)) : Prop where
  calls : ∀ e ∈ t, EntryCall level e.1
  empty : o = some (stop 0) ↔ ∃ list, Listed t level list ∧ names list = some []
  found : ∀ f, o = some f → f.rv = 0 → f = stop 0 ∨ Complete level Item t f

section Entries

variable {level : Level} {Item : List SkfEvent → Name → α → Prop} {t u : List SkfEvent}
  {list : List UInt8} {ns : List Name}

theorem entry_calls_append (ht : ∀ e ∈ t, EntryCall level e.1) (hu : ∀ e ∈ u, OpenCall level e.1) :
    ∀ e ∈ t ++ u, EntryCall level e.1 := by
  intro e he
  rcases List.mem_append.mp he with he | he
  · exact ht e he
  · exact (hu e he).entry

theorem listed_behind (hread : ReadSpec level t (some (.ok list)))
    (hu : ∀ e ∈ u, OpenCall level e.1) {list' : List UInt8} :
    Listed (t ++ u) level list' ↔ list' = list := by
  rw [listed_append, hread.listed, or_iff_left (not_listed_of_open hu)]
  constructor
  · rintro ⟨-, ⟨⟩⟩
    rfl
  · rintro rfl
    exact ⟨rfl, rfl⟩

theorem entries_behind (hread : ReadSpec level t (some (.ok list)))
    (hu : ∀ e ∈ u, OpenCall level e.1) {o : Option (Found α)}
    (hempty : o = some (stop 0) ↔ names list = some [])
    (hfound : ∀ f, o = some f → f.rv = 0 → f = stop 0 ∨ Complete level Item (t ++ u) f) :
    EntriesSpec level Item (t ++ u) o := by
  refine ⟨entry_calls_append hread.calls hu, hempty.trans ?_, hfound⟩
  constructor
  · exact fun h => ⟨list, (listed_behind hread hu).mpr rfl, h⟩
  · rintro ⟨list', hl, h⟩
    rwa [(listed_behind hread hu).mp hl] at h

theorem complete_behind (hread : ReadSpec level t (some (.ok list))) (hns : names list = some ns)
    (hmono : ∀ t u name a, t ⊆ u → Item t name a → Item u name a)
    (hu : ∀ e ∈ u, OpenCall level e.1) {array : OutArray α} (hsize : array.size = ns.length)
    (hcells : List.Forall₂ (Item u) ns array.cells) :
    Complete level Item (t ++ u) ⟨0, some array, some ns.length⟩ := by
  refine ⟨list, ns, array, (listed_behind hread hu).mpr rfl, hns, rfl, rfl, hsize, ?_⟩
  exact hcells.imp fun n x hx => hmono u (t ++ u) n x (List.subset_append_right t u) hx

structure AllocSpec (level : Level) (Item : List SkfEvent → Name → α → Prop) (ns : List Name)
    (full : OutArray α → Found α) (u : List SkfEvent) (o : Option (Found α)) : Prop where
  calls : ∀ e ∈ u, OpenCall level e.1
  found : ∀ f, o = some f → f.rv ≠ 0 ∨ ∃ array, f = full array ∧ array.size = ns.length ∧
    List.Forall₂ (Item u) ns array.cells

theorem allocate_spec {Bad : ρ → Prop} {step : ℕ} {entry : Name → OutArray α → Skf (Except ρ α)}
    {finish : Except ρ (OutArray α) → Skf (Found α)} {full : OutArray α → Found α}
    (hstep : step ≤ 1) (hns : names list = some ns)
    (hmono : ∀ t u name a, t ⊆ u → Item t name a → Item u name a)
    (hentry : ∀ name array, Holds (EntrySpec level Item Bad name) (entry name array))
    (herror : ∀ e, Bad e → ∃ f, finish (.error e) = ret f ∧ f.rv ≠ 0)
    (hok : ∀ array, finish (.ok array) = ret (full array)) :
    Holds (AllocSpec level Item ns full) (malloc ns.length >>= fun ok =>
      if ¬ ok then pure (stop (-1)) else fillArray step entry list ns.length >>= finish) := by
  refine holds_then fun ok => ?_
  have hstart : OpenCall level (.malloc ns.length) := trivial
  by_cases halloc : ¬ ok = true
  · rw [if_pos halloc]
    refine ⟨List.forall_mem_singleton.mpr hstart, ?_⟩
    rintro f ⟨⟩
    have hrv : (-1 : UInt32) ≠ 0 := by decide
    exact Or.inl hrv
  rw [if_neg halloc]
  apply holds_bind (fill_array_spec hstep hns hmono hentry)
  · exact fun u hu => ⟨List.forall_mem_cons.mpr ⟨hstart, hu.calls⟩, by simp⟩
  · intro u out hu
    have hcalls : ∀ e ∈ ⟨.malloc ns.length, ok⟩ :: (u ++ []), OpenCall level e.1 := by
      rw [List.append_nil]
      exact List.forall_mem_cons.mpr ⟨hstart, hu.calls⟩
    cases out with
    | error e =>
      obtain ⟨f, hf, hrv⟩ := herror e (hu.error e rfl)
      rw [hf]
      refine ⟨hcalls, ?_⟩
      rintro f ⟨⟩
      exact Or.inl hrv
    | ok array =>
      obtain ⟨hsize, hcells⟩ := hu.filled array rfl
      rw [hok]
      refine ⟨hcalls, ?_⟩
      rintro f ⟨⟩
      refine Or.inr ⟨array, rfl, hsize, hcells.imp fun n x hx => ?_⟩
      rw [List.append_nil]
      exact hmono u _ n x (List.subset_cons_self _ u) hx

def finishEntries (size : ℕ) : Except UInt32 (OutArray α) → Skf (Found α)
  | .error rv => pure (stop rv)
  | .ok array => pure ⟨0, some array, some size⟩

/-- The ways through getEntries: a list that is not there, has no names or is not terminated
ends it, and any other is filled into an array. -/
theorem get_entries_holds {entry : Name → OutArray α → Skf (Except UInt32 α)}
    {R : List SkfEvent → Option (Except UInt32 (List UInt8)) → Prop}
    {Q : List SkfEvent → Option (Found α) → Prop} (hread : Holds R (readList level))
    (hfault : ∀ t, R t none → Q t none)
    (herror : ∀ t rv, R t (some (.error rv)) → Q t (some (stop rv)))
    (hopen : ∀ t list, R t (some (.ok list)) → names list = none → Q t none)
    (hempty : ∀ t list, R t (some (.ok list)) → names list = some [] → Q t (some (stop 0)))
    (hfill : ∀ t list ns, R t (some (.ok list)) → names list = some ns → ns ≠ [] →
      Holds (fun u o => Q (t ++ u) o) (malloc ns.length >>= fun ok =>
        if ¬ ok then pure (stop (-1))
        else fillArray 1 entry list ns.length >>= finishEntries ns.length)) :
    Holds Q (getEntries level entry) := by
  apply holds_bind hread hfault
  intro t r hread
  cases r with
  | error rv => exact holds_ret (herror t rv hread)
  | ok list =>
    dsimp only
    rw [count_names (Nat.le_refl 1)]
    cases hns : names list with
    | none => exact holds_fault (hopen t list hread hns)
    | some ns =>
      rw [Option.map_some, Nat.zero_add]
      cases hlen : ns.length with
      | zero =>
        rw [List.length_eq_zero_iff.mp hlen] at hns
        exact holds_ret (hempty t list hread hns)
      | succ num =>
        have hne : ns ≠ [] := by
          rintro rfl
          cases hlen
        have hrest := hfill t list ns hread hns hne
        rw [hlen] at hrest
        exact hrest

def finishDevices : Except (UInt32 × OutArray ℕ) (OutArray ℕ) → Skf (Found ℕ)
  | .error (rv, array) => pure ⟨rv, some array, none⟩
  | .ok array => pure ⟨0, some array, some array.cells.length⟩

/-- The ways through getDevices: a list without names is filled into an array too. -/
theorem get_devices_holds {R : List SkfEvent → Option (Except UInt32 (List UInt8)) → Prop}
    {Q : List SkfEvent → Option (Found ℕ) → Prop} (hread : Holds R (readList .device))
    (hfault : ∀ t, R t none → Q t none)
    (herror : ∀ t rv, R t (some (.error rv)) → Q t (some (stop rv)))
    (hopen : ∀ t list, R t (some (.ok list)) → names list = none → Q t none)
    (hfill : ∀ t list ns, R t (some (.ok list)) → names list = some ns →
      Holds (fun u o => Q (t ++ u) o) (malloc ns.length >>= fun ok =>
        if ¬ ok then pure (stop (-1))
        else fillArray 0 connectDev list ns.length >>= finishDevices)) :
    Holds Q getDevices := by
  apply holds_bind hread hfault
  intro t r hread
  cases r with
  | error rv => exact holds_ret (herror t rv hread)
  | ok list =>
    dsimp only
    rw [count_names (Nat.zero_le 1)]
    cases hns : names list with
    | none => exact holds_fault (hopen t list hread hns)
    | some ns =>
      rw [Option.map_some, Nat.zero_add]
      exact hfill t list ns hread hns

theorem get_entries_spec {entry : Name → OutArray α → Skf (Except UInt32 α)}
    (hmono : ∀ t u name a, t ⊆ u → Item t name a → Item u name a)
    (hentry : ∀ name array, Holds (EntrySpec level Item (· ≠ 0) name) (entry name array)) :
    Holds (EntriesSpec level Item) (getEntries level entry) := by
  apply get_entries_holds (read_list_spec level)
  · intro t hread
    refine ⟨hread.calls, ?_, by simp⟩
    simp [hread.listed]
  · intro t rv hread
    have hrv := hread.error rv rfl
    refine ⟨hread.calls, ?_, ?_⟩
    · simp [hread.listed, stop, hrv]
    · rintro f ⟨⟩ hzero
      exact absurd hzero hrv
  · intro t list hread hns
    rw [← List.append_nil t]
    exact entries_behind hread (by simp) (by simp [hns]) (by simp)
  · intro t list hread hns
    rw [← List.append_nil t]
    refine entries_behind hread (by simp) (by simp [hns]) ?_
    rintro f ⟨⟩ -
    exact Or.inl rfl
  · intro t list ns hread hns hne
    have hnone : ¬ names list = some [] := by
      rw [hns]
      rintro ⟨⟩
      exact hne rfl
    refine holds_mono (fun u o hu => ?_) (allocate_spec (Nat.le_refl 1) hns hmono hentry
      (fun rv hrv => ⟨stop rv, rfl, hrv⟩) fun array => rfl)
    refine entries_behind hread hu.calls (iff_of_false ?_ hnone) ?_
    · intro hstop
      rcases hu.found _ hstop with hrv | ⟨array, hfull, -⟩
      · exact hrv rfl
      · cases hfull
    · intro f hf hzero
      rcases hu.found f hf with hrv | ⟨array, rfl, hsize, hcells⟩
      · exact absurd hzero hrv
      · exact Or.inr (complete_behind hread hns hmono hu.calls hsize hcells)

def OpenedAs (level : Level) (t : List SkfEvent) (name : Name) (h : ℕ) : Prop :=
  (⟨.openEntry level name, ⟨0, h⟩⟩ : SkfEvent) ∈ t

theorem opened_as_mono (t u : List SkfEvent) (name : Name) (h : ℕ) (htu : t ⊆ u)
    (ht : OpenedAs level t name h) : OpenedAs level u name h := htu ht

theorem open_entry_spec {Bad : ρ → Prop} (name : Name) (fail : UInt32 → ρ)
    (hfail : ∀ rv, rv ≠ 0 → Bad (fail rv)) :
    Holds (EntrySpec level (OpenedAs level) Bad name) (openEntry level name >>= fun r =>
      if r.rv ≠ 0 then pure (.error (fail r.rv)) else pure (.ok r.handle)) := by
  refine holds_then fun r => ?_
  by_cases hrv : r.rv ≠ 0
  · rw [if_pos hrv]
    refine ⟨by simp [OpenCall], by simp, ?_⟩
    rintro e ⟨⟩
    exact hfail r.rv hrv
  · rw [if_neg hrv]
    refine ⟨by simp [OpenCall], ?_, by simp⟩
    rintro h ⟨⟩
    have hzero : r.rv = 0 := not_not.mp hrv
    rw [OpenedAs, ← hzero]
    exact List.mem_singleton_self _

theorem open_handle_spec (name : Name) (array : OutArray ℕ) :
    Holds (EntrySpec level (OpenedAs level) (· ≠ 0) name) (openHandle level name array) :=
  open_entry_spec name id fun _ hrv => hrv

theorem connect_dev_spec (name : Name) (array : OutArray ℕ) :
    Holds (EntrySpec .device (OpenedAs .device) (·.1 ≠ 0) name) (connectDev name array) :=
  open_entry_spec name (fun rv => (rv, array)) fun _ hrv => hrv

theorem copy_name_spec (name : Name) (array : OutArray Name) :
    Holds (EntrySpec level (fun _ n copy => copy = n) (· ≠ 0) name) (copyName name array) := by
  refine holds_then fun ok => ?_
  by_cases hok : ¬ ok = true
  · rw [if_pos hok]
    refine ⟨by simp [OpenCall], by simp, ?_⟩
    rintro rv ⟨⟩
    decide
  · rw [if_neg hok]
    refine ⟨by simp [OpenCall], ?_, by simp⟩
    rintro copy ⟨⟩
    rfl

structure DevicesSpec (t : List SkfEvent) (o : Option (Found ℕ)) : Prop where
  calls : ∀ e ∈ t, EntryCall .device e.1
  found : ∀ f, o = some f → f.rv = 0 → Complete .device (OpenedAs .device) t f

theorem get_devices_spec : Holds DevicesSpec getDevices := by
  apply get_devices_holds (read_list_spec .device)
  · exact fun t hread => ⟨hread.calls, by simp⟩
  · intro t rv hread
    refine ⟨hread.calls, ?_⟩
    rintro f ⟨⟩ hzero
    exact absurd hzero (hread.error rv rfl)
  · exact fun t list hread _ => ⟨hread.calls, by simp⟩
  · intro t list ns hread hns
    refine holds_mono (fun u o hu => ?_) (allocate_spec (Nat.zero_le 1) hns opened_as_mono
      connect_dev_spec (fun e he => ⟨⟨e.1, some e.2, none⟩, rfl, he⟩) fun array => rfl)
    refine ⟨entry_calls_append hread.calls hu.calls, fun f hf hzero => ?_⟩
    rcases hu.found f hf with hrv | ⟨array, rfl, hsize, hcells⟩
    · exact absurd hzero hrv
    · rw [← hcells.length_eq]
      exact complete_behind hread hns opened_as_mono hu.calls hsize hcells

end Entries

def Outputs (Valid : List SkfEvent → α → Prop) (t : List SkfEvent) (f : Found α) : Prop :=
  ∃ array, f.array = some array ∧ f.count = some array.cells.length ∧
    array.size = array.cells.length ∧ ∀ x ∈ array.cells, Valid t x

def SuccessMeansValid (Valid : List SkfEvent → α → Prop) (t : List SkfEvent)
    (o : Option (Bool × Found α)) : Prop :=
  ∀ api f, o = some (api, f) → f.rv = 0 → Outputs Valid t f

def ValidHandle (level : Level) (t : List SkfEvent) (h : ℕ) : Prop :=
  ∃ name, OpenedAs level t name h

def ValidName (level : Level) (t : List SkfEvent) (name : Name) : Prop :=
  ∃ list ns, Listed t level list ∧ names list = some ns ∧ name ∈ ns

def ListsNames (level : Level) (t : List SkfEvent) : Prop :=
  ∀ list, Listed t level list → ∃ b ∈ list, b ≠ 0

section Success

variable {level : Level} {Item : List SkfEvent → Name → α → Prop} {t u : List SkfEvent}
  {Valid : List SkfEvent → α → Prop}

theorem lists_names_iff :
    ListsNames level t ↔ ¬ ∃ list, Listed t level list ∧ names list = some [] := by
  simp [ListsNames, names_empty_iff]

theorem load_not_listed (h : ∀ e ∈ t, LoadCall e.1) {list : List UInt8} :
    ¬ Listed t level list := by
  rintro ⟨room, hm, -⟩
  exact h _ hm

theorem entry_silent (h : ∀ e ∈ t, EntryCall level e.1) : ¬ ErrorMessage t := by
  rintro ⟨m, hm⟩
  exact h _ hm

theorem forall₂_mem_right {β γ : Type} {S : β → γ → Prop} {xs : List β} {ys : List γ}
    (h : List.Forall₂ S xs ys) : ∀ y ∈ ys, ∃ x ∈ xs, S x y := by
  induction h with
  | nil => simp
  | cons hxy _ ih =>
    intro y hy
    rcases List.mem_cons.mp hy with rfl | hy
    · exact ⟨_, List.mem_cons_self, hxy⟩
    · obtain ⟨x, hx, hs⟩ := ih y hy
      exact ⟨x, List.mem_cons_of_mem _ hx, hs⟩

theorem complete_outputs {f : Found α} (h : Complete level Item u f)
    (hvalid : ∀ list ns name x, Listed u level list → names list = some ns → name ∈ ns →
      Item u name x → Valid (t ++ u) x) : Outputs Valid (t ++ u) f := by
  obtain ⟨list, ns, array, hlisted, hns, harray, hcount, hsize, hcells⟩ := h
  refine ⟨array, harray, ?_, ?_, fun x hx => ?_⟩
  · rw [hcount, hcells.length_eq]
  · rw [hsize, hcells.length_eq]
  · obtain ⟨name, hname, hitem⟩ := forall₂_mem_right hcells x hx
    exact hvalid list ns name x hlisted hns hname hitem

/-- A function fails its purpose where there is a message, and otherwise where its body
does. -/
theorem success_iff {body : Skf (Found α)} {P : List SkfEvent → Option (Found α) → Prop}
    {Cond : List SkfEvent → Prop} (hbody : Holds P body)
    (hsilent : ∀ u o, P u o → ¬ ErrorMessage u) (hload : ∀ t, (∀ e ∈ t, LoadCall e.1) → Cond t)
    (hcond : ∀ t u o, (∀ e ∈ t, LoadCall e.1) → P u o →
      ((∀ f, o = some f → f.rv = 0 → Outputs Valid (t ++ u) f) ↔ Cond (t ++ u))) (api : Bool) :
    Holds (fun t o => SuccessMeansValid Valid t o ↔ ¬ ErrorMessage t ∧ Cond t)
      (useApi api (stop 0) body) := by
  refine holds_mono (fun t o h => ?_) (use_api_spec api (stop 0) hbody)
  cases h with
  | message hapi hcalls hmessage hnot =>
    constructor
    · intro h
      obtain ⟨array, harray, -⟩ := h false (stop 0) rfl rfl
      cases harray
    · exact fun h => absurd hmessage h.1
  | lost hapi hcalls hno hnot =>
    constructor
    · exact fun _ => ⟨hno, hload t hcalls⟩
    · rintro - api f ⟨⟩
  | used hcalls hno hkept hloads hspec =>
    rename_i t u o
    rw [errorMessage_append, ← hcond t u o hcalls hspec]
    constructor
    · intro h
      refine ⟨by simp [hno, hsilent u o hspec], ?_⟩
      rintro f rfl hzero
      exact h true f rfl hzero
    · rintro ⟨-, h⟩ api f hf hzero
      obtain ⟨_, hsome, heq⟩ := Option.map_eq_some_iff.mp hf
      cases heq
      exact h f hsome hzero

theorem entries_success_iff {body : Skf (Found α)} (hbody : Holds (EntriesSpec level Item) body)
    (hvalid : ∀ t u list ns name x, Listed u level list → names list = some ns → name ∈ ns →
      Item u name x → Valid (t ++ u) x) (api : Bool) :
    Holds (fun t o => SuccessMeansValid Valid t o ↔ ¬ ErrorMessage t ∧ ListsNames level t)
      (useApi api (stop 0) body) := by
  apply success_iff hbody
  · exact fun u o hspec => entry_silent hspec.calls
  · exact fun t hcalls list hlisted => absurd hlisted (load_not_listed hcalls)
  · intro t u o hcalls hspec
    have hlisted : ∀ list, Listed (t ++ u) level list ↔ Listed u level list := by
      intro list
      rw [listed_append, or_iff_right (load_not_listed hcalls)]
    rw [lists_names_iff]
    simp only [hlisted, ← hspec.empty]
    constructor
    · rintro h rfl
      obtain ⟨array, harray, -⟩ := h (stop 0) rfl rfl
      cases harray
    · rintro hno f rfl hzero
      rcases hspec.found f rfl hzero with rfl | hcomplete
      · exact absurd rfl hno
      · exact complete_outputs hcomplete (hvalid t u)

theorem opened_valid (t u : List SkfEvent) {name : Name} {h : ℕ} (ho : OpenedAs level u name h) :
    ValidHandle level (t ++ u) h := ⟨name, List.mem_append_right t ho⟩

theorem complete_valid {f : Found ℕ} (h : Complete level (OpenedAs level) u f) :
    ∀ a, f.array = some a → ∀ x ∈ a.cells, ValidHandle level (t ++ u) x := by
  obtain ⟨list, ns, array, hlisted, hns, harray, hcount, hsize, hcells⟩ := h
  intro a ha x hx
  rw [harray, Option.some.injEq] at ha
  obtain ⟨name, -, hopened⟩ := forall₂_mem_right hcells x (ha ▸ hx)
  exact opened_valid t u hopened

theorem app_handles_success_iff (hDev : Option ℕ) (api : Bool) :
    Holds (fun t o => SuccessMeansValid (ValidHandle (.application hDev)) t o ↔
      ¬ ErrorMessage t ∧ ListsNames (.application hDev) t) (getAppHandles hDev api) :=
  entries_success_iff (get_entries_spec opened_as_mono open_handle_spec)
    (fun t u _ _ _ _ _ _ _ ho => opened_valid t u ho) api

theorem container_handles_success_iff (hApp : Option ℕ) (api : Bool) :
    Holds (fun t o => SuccessMeansValid (ValidHandle (.container hApp)) t o ↔
      ¬ ErrorMessage t ∧ ListsNames (.container hApp) t) (getContainerHandles hApp api) :=
  entries_success_iff (get_entries_spec opened_as_mono open_handle_spec)
    (fun t u _ _ _ _ _ _ _ ho => opened_valid t u ho) api

theorem container_names_success_iff (hApp : Option ℕ) (api : Bool) :
    Holds (fun t o => SuccessMeansValid (ValidName (.container hApp)) t o ↔
      ¬ ErrorMessage t ∧ ListsNames (.container hApp) t) (getContainerNames hApp api) := by
  refine entries_success_iff (get_entries_spec ?_ copy_name_spec) ?_ api
  · exact fun _ _ _ _ _ h => h
  · rintro t u list ns name x hlisted hns hname rfl
    exact ⟨list, ns, listed_append.mpr (Or.inr hlisted), hns, hname⟩

theorem dev_handles_success_iff (api : Bool) :
    Holds (fun t o => SuccessMeansValid (ValidHandle .device) t o ↔ ¬ ErrorMessage t)
      (getDevHandles api) := by
  have h : Holds (fun t o => SuccessMeansValid (ValidHandle .device) t o ↔
      ¬ ErrorMessage t ∧ True) (getDevHandles api) := by
    refine success_iff get_devices_spec (fun u o hspec => entry_silent hspec.calls)
      (fun _ _ => trivial) (fun t u o hcalls hspec => ?_) api
    refine iff_of_true (fun f hf hzero => ?_) trivial
    refine complete_outputs (hspec.found f hf hzero) ?_
    exact fun _ _ _ _ _ _ _ ho => opened_valid t u ho
  exact holds_mono (fun t o hiff => hiff.trans (and_iff_left trivial)) h

end Success

end SkfEnumeration
