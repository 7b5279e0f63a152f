import MakeDownFile.NameScans
import MakeDownFile.SkfEnumeration

/-! # The loops over the lists of a token

The four functions that list what a token holds go over the list twice, and make one count
and one array of it whatever the replies to the calls between. -/
namespace SkfListLoops

open CallPrograms
open CallPrograms.Prog
open NameLists
open NameScans
open SkfApi
open SkfEnumeration

inductive Parser where
  | devHandles
  | appHandles (hDev : Option ℕ)
  | containerHandles (hApp : Option ℕ)
  | containerNames (hApp : Option ℕ)

def Parser.level : Parser → Level
  | devHandles => .device
  | appHandles hDev => .application hDev
  | containerHandles hApp => .container hApp
  | containerNames hApp => .container hApp

/-- Only GetDevHandles stops at the NUL behind a name. -/
def Parser.step : Parser → ℕ
  | devHandles => 0
  | appHandles _ | containerHandles _ | containerNames _ => 1

abbrev Parser.Entry : Parser → Type
  | devHandles | appHandles _ | containerHandles _ => ℕ
  | containerNames _ => Name

def Parser.get : (P : Parser) → Bool → Skf (Bool × Found P.Entry)
  | devHandles => getDevHandles
  | appHandles hDev => getAppHandles hDev
  | containerHandles hApp => getContainerHandles hApp
  | containerNames hApp => getContainerNames hApp

abbrev Parser.Left : Parser → Type
  | devHandles => UInt32 × OutArray ℕ
  | appHandles _ | containerHandles _ | containerNames _ => UInt32

def Parser.entry : (P : Parser) → Name → OutArray P.Entry → Skf (Except P.Left P.Entry)
  | devHandles => connectDev
  | appHandles hDev => openHandle (.application hDev)
  | containerHandles hApp => openHandle (.container hApp)
  | containerNames _ => copyName

def Parser.call : Parser → Name → Call
  | devHandles, name => .openEntry .device name
  | appHandles hDev, name => .openEntry (.application hDev) name
  | containerHandles hApp, name => .openEntry (.container hApp) name
  | containerNames _, name => .malloc (name.length + 1)

def finishEntries {α : Type} (num : ℕ) : Except UInt32 (OutArray α) → Found α
  | .error rv => stop rv
  | .ok array => ⟨0, some array, some num⟩

def finishDevices (_num : ℕ) : Except (UInt32 × OutArray ℕ) (OutArray ℕ) → Found ℕ
  | .error (rv, array) => ⟨rv, some array, none⟩
  | .ok array => ⟨0, some array, some array.cells.length⟩

def Parser.finish : (P : Parser) → ℕ → Except P.Left (OutArray P.Entry) → Found P.Entry
  | devHandles => finishDevices
  | appHandles _ | containerHandles _ | containerNames _ => finishEntries

/-- What is done with a list that has been read: two loops, and an array between them unless
there is nothing to put there. -/
def parseList {α ρ : Type} (step : ℕ) (entry : Name → OutArray α → Skf (Except ρ α))
    (finish : ℕ → Except ρ (OutArray α) → Found α) : Except UInt32 (List UInt8) → Skf (Found α)
  | .error rv => pure (stop rv)
  | .ok list =>
    match countNames step 0 list 0 with
    | none => fault
    | some num =>
      if num = 0 ∧ step = 1 then pure (stop 0)
      else do
        let ok ← malloc num
        if ¬ ok then pure (stop (-1))
        else
          let out ← fillArray step entry list num
          pure (finish num out)

def Parser.parse (P : Parser) : Except UInt32 (List UInt8) → Skf (Found P.Entry) :=
  parseList P.step P.entry P.finish

def Parser.Made : (P : Parser) → List SkfEvent → Name → P.Entry → Prop
  | devHandles => OpenedAs .device
  | appHandles hDev => OpenedAs (.application hDev)
  | containerHandles hApp => OpenedAs (.container hApp)
  | containerNames _ => fun _ name copy => copy = name

inductive Failure : SkfEvent → Prop where
  | opening (level : Level) (name : Name) (r : HandleReply) (h : r.rv ≠ 0) :
      Failure ⟨.openEntry level name, r⟩
  | memory (size : ℕ) : Failure ⟨.malloc size, false⟩

def Failed (t : List SkfEvent) : Prop := ∃ e ∈ t, Failure e

/-- Nothing is undefined, and what ends early does so for `Bad` reasons. -/
structure Proper {α ρ : Type} (Bad : List SkfEvent → Prop) (t : List SkfEvent)
    (o : Option (Except ρ α)) : Prop where
  defined : o ≠ none
  error : ∀ e, o = some (.error e) → Bad t

inductive Parsed {α : Type} (Item : List SkfEvent → Name → α → Prop) (t : List SkfEvent) :
    Option (List Name) → Option (Found α) → Prop where
  | unterminated : Parsed Item t none none
  | empty (f : Found α) : Parsed Item t (some []) (some f)
  | failed (ns : List Name) (f : Found α) (h : Failed t) : Parsed Item t (some ns) (some f)
  | found (ns : List Name) (array : OutArray α) (hsize : array.size = ns.length)
      (hcells : List.Forall₂ (Item t) ns array.cells) :
      Parsed Item t (some ns) (some ⟨0, some array, some ns.length⟩)

def ParseSpec {α : Type} (level : Level) (Item : List SkfEvent → Name → α → Prop)
    (t : List SkfEvent) (o : Option (Found α)) : Prop :=
  ∀ list, Listed t level list → Parsed Item t (names list) o

variable {α ρ : Type} {level : Level} {Item : List SkfEvent → Name → α → Prop}
  {Bad : List SkfEvent → Prop} {t u : List SkfEvent} {list : List UInt8} {ns : List Name}

theorem failed_behind (h : Failed u) : Failed (t ++ u) := by
  obtain ⟨e, he, hfail⟩ := h
  exact ⟨e, List.mem_append_right t he, hfail⟩

theorem open_entry_proper (name : Name) (fail : UInt32 → ρ) :
    Holds (Proper Failed) (openEntry level name >>= fun r =>
      if r.rv ≠ 0 then pure (.error (fail r.rv)) else pure (.ok r.handle)) := by
  refine holds_then fun r => ?_
  by_cases hrv : r.rv ≠ 0
  · rw [if_pos hrv]
    exact ⟨by simp, fun _ _ => ⟨_, List.mem_singleton_self _, .opening level name r hrv⟩⟩
  · rw [if_neg hrv]
    exact ⟨by simp, by simp⟩

theorem open_handle_proper (name : Name) (array : OutArray ℕ) :
    Holds (Proper Failed) (openHandle level name array) := open_entry_proper name id

theorem connect_dev_proper (name : Name) (array : OutArray ℕ) :
    Holds (Proper Failed) (connectDev name array) :=
  open_entry_proper name fun rv => (rv, array)

theorem copy_name_proper (name : Name) (array : OutArray Name) :
    Holds (Proper Failed) (copyName name array) := by
  refine holds_then fun ok => ?_
  cases ok with
  | false => exact ⟨by simp, fun _ _ => ⟨_, List.mem_singleton_self _, .memory _⟩⟩
  | true => exact ⟨by simp, by simp⟩

theorem store_within {array : OutArray α} (h : array.cells.length < array.size) (x : α) :
    ∃ b, array.store x = some b ∧ b.size = array.size ∧ b.cells = array.cells ++ [x] := by
  have hstore : array.store x ≠ none := by simp [OutArray.store, h]
  obtain ⟨b, hb⟩ := Option.ne_none_iff_exists'.mp hstore
  exact ⟨b, hb, store_cells hb⟩

/-- The array has room for the names still to come, so every entry has a cell. -/
theorem fill_array_proper {step : ℕ} {entry : Name → OutArray α → Skf (Except ρ α)}
    (hstep : step ≤ 1) (hns : names list = some ns)
    (hbad : ∀ t u, Bad u → Bad (t ++ u))
    (hentry : ∀ name array, Holds (Proper Bad) (entry name array)) :
    Holds (Proper Bad) (fillArray step entry list ns.length) := by
  rw [fillArray, walk_names hstep hns]
  refine holds_mono ?_ (holds_iterate (t := [])
    (I := fun rest _ array => array.cells.length + rest.length = array.size)
    (E := fun t o => o ≠ none ∧ Bad t) ?_ (Nat.zero_add ns.length))
  · intro t o hend
    cases o with
    | none => exact absurd rfl hend.1
    | some r =>
      cases r with
      | error e => exact ⟨by simp, fun _ _ => hend.2⟩
      | ok array => exact ⟨by simp, by simp⟩
  · intro name rest t array hroom
    apply holds_proceed (hentry name array)
    · exact fun u hu => absurd rfl hu.defined
    · exact fun u e hu => ⟨by simp, hbad t u (hu.error e rfl)⟩
    · intro u a _
      rw [List.length_cons] at hroom
      obtain ⟨b, hb, hsize, hcells⟩ := store_within (by omega : array.cells.length < array.size) a
      rw [storeNext, hb]
      show b.cells.length + rest.length = b.size
      rw [hsize, hcells, List.length_append, List.length_singleton]
      omega

theorem Parsed.mono {o : Option (List Name)} {f : Option (Found α)}
    (hmono : ∀ t u name a, t ⊆ u → Item t name a → Item u name a) (h : Parsed Item u o f) :
    Parsed Item (t ++ u) o f := by
  cases h with
  | unterminated => exact .unterminated
  | empty f => exact .empty f
  | failed ns f hfail => exact .failed ns f (failed_behind hfail)
  | found ns array hsize hcells =>
    refine .found ns array hsize (hcells.imp fun n x hx => ?_)
    exact hmono u (t ++ u) n x (List.subset_append_right t u) hx

theorem allocate_proper {step : ℕ} {entry : Name → OutArray α → Skf (Except ρ α)}
    {finish : Except ρ (OutArray α) → Skf (Found α)} {count : OutArray α → ℕ} (hstep : step ≤ 1)
    (hns : names list = some ns) (hentry : ∀ name array, Holds (Proper Failed) (entry name array))
    (herror : ∀ e, ∃ f, finish (.error e) = ret f)
    (hok : ∀ array, finish (.ok array) = ret ⟨0, some array, some (count array)⟩) :
    Holds (fun u o => o ≠ none ∧ ∀ f, o = some f → f.rv ≠ 0 → Failed u)
      (malloc ns.length >>= fun ok =>
        if ¬ ok then pure (stop (-1)) else fillArray step entry list ns.length >>= finish) := by
  refine holds_then fun ok => ?_
  by_cases halloc : ¬ ok = true
  · rw [if_pos halloc]
    obtain rfl : ok = false := Bool.eq_false_iff.mpr halloc
    exact ⟨by simp, fun _ _ _ => ⟨_, List.mem_singleton_self _, .memory ns.length⟩⟩
  rw [if_neg halloc]
  apply holds_bind (fill_array_proper hstep hns (fun _ _ => failed_behind) hentry)
  · exact fun u hu => absurd rfl hu.defined
  · intro u r hu
    cases r with
    | error e =>
      obtain ⟨f, hf⟩ := herror e
      rw [hf]
      refine ⟨by simp, fun _ _ _ => ?_⟩
      rw [List.append_nil]
      exact @failed_behind [_] u (hu.error e rfl)
    | ok array =>
      rw [hok]
      refine ⟨by simp, ?_⟩
      rintro f ⟨⟩ hrv
      exact absurd rfl hrv

/-- Allocating and filling either fails or ends with an entry for each name. -/
theorem allocate_parsed {Bad' : ρ → Prop} {step : ℕ}
    {entry : Name → OutArray α → Skf (Except ρ α)}
    {finish : Except ρ (OutArray α) → Skf (Found α)} {count : OutArray α → ℕ}
    (hstep : step ≤ 1) (hns : names list = some ns)
    (hmono : ∀ t u name a, t ⊆ u → Item t name a → Item u name a)
    (hentry : ∀ name array, Holds (EntrySpec level Item Bad' name) (entry name array))
    (hproper : ∀ name array, Holds (Proper Failed) (entry name array))
    (herror : ∀ e, ∃ f, finish (.error e) = ret f ∧ (Bad' e → f.rv ≠ 0))
    (hok : ∀ array, finish (.ok array) = ret ⟨0, some array, some (count array)⟩)
    (hcount : ∀ array, array.cells.length = ns.length → count array = ns.length) :
    Holds (fun u o => (∀ e ∈ u, OpenCall level e.1) ∧ Parsed Item u (some ns) o)
      (malloc ns.length >>= fun ok =>
        if ¬ ok then pure (stop (-1)) else fillArray step entry list ns.length >>= finish) := by
  have hspec := allocate_spec hstep hns hmono hentry
    (fun e he => (herror e).imp fun _ hf => ⟨hf.1, hf.2 he⟩) hok
  have hproper := allocate_proper hstep hns hproper (fun e => (herror e).imp fun _ hf => hf.1) hok
  refine holds_mono (fun u o h => ?_) (holds_and hspec hproper)
  obtain ⟨halloc, hdefined, hfailed⟩ := h
  obtain ⟨f, rfl⟩ := Option.ne_none_iff_exists'.mp hdefined
  refine ⟨halloc.calls, ?_⟩
  by_cases hrv : f.rv ≠ 0
  · exact .failed ns f (hfailed f rfl hrv)
  · rcases halloc.found f rfl with hne | ⟨array, rfl, hsize, hcells⟩
    · exact absurd hne hrv
    · rw [hcount array hcells.length_eq.symm]
      exact .found ns array hsize hcells

theorem parse_behind (hread : ReadSpec level t (some (.ok list)))
    (hu : ∀ e ∈ u, OpenCall level e.1) {o : Option (Found α)}
    (h : Parsed Item (t ++ u) (names list) o) : ParseSpec level Item (t ++ u) o := by
  intro list' hlisted
  rwa [(listed_behind hread hu).mp hlisted]

theorem not_parsed {o : Option (Except UInt32 (List UInt8))} (hread : ReadSpec level t o)
    (hno : ∀ list, o ≠ some (.ok list)) {f : Option (Found α)} : ParseSpec level Item t f :=
  fun list hlisted => absurd ((hread.listed level list).mp hlisted).2 (hno list)

theorem get_entries_parsed {entry : Name → OutArray α → Skf (Except UInt32 α)}
    (hmono : ∀ t u name a, t ⊆ u → Item t name a → Item u name a)
    (hentry : ∀ name array, Holds (EntrySpec level Item (· ≠ 0) name) (entry name array))
    (hproper : ∀ name array, Holds (Proper Failed) (entry name array)) :
    Holds (ParseSpec level Item) (getEntries level entry) := by
  apply get_entries_holds (read_list_spec level)
  · exact fun t hread => not_parsed hread (by simp)
  · exact fun t rv hread => not_parsed hread (by simp)
  · intro t list hread hns
    rw [← List.append_nil t]
    apply parse_behind hread (by simp)
    rw [hns]
    exact .unterminated
  · intro t list hread hns
    rw [← List.append_nil t]
    apply parse_behind hread (by simp)
    rw [hns]
    exact .empty (stop 0)
  · intro t list ns hread hns _
    refine holds_mono (fun u o hu => ?_) (allocate_parsed (Nat.le_refl 1) hns hmono hentry
      hproper (fun rv => ⟨stop rv, rfl, id⟩) (fun array => rfl) fun array _ => rfl)
    apply parse_behind hread hu.1
    rw [hns]
    exact hu.2.mono hmono

theorem get_devices_parsed : Holds (ParseSpec .device (OpenedAs .device)) getDevices := by
  apply get_devices_holds (read_list_spec .device)
  · exact fun t hread => not_parsed hread (by simp)
  · exact fun t rv hread => not_parsed hread (by simp)
  · intro t list hread hns
    rw [← List.append_nil t]
    apply parse_behind hread (by simp)
    rw [hns]
    exact .unterminated
  · intro t list ns hread hns
    refine holds_mono (fun u o hu => ?_) (allocate_parsed (Nat.zero_le 1) hns opened_as_mono
      connect_dev_spec connect_dev_proper (fun e => ⟨⟨e.1, some e.2, none⟩, rfl, id⟩)
      (fun array => rfl) fun array hlen => hlen)
    apply parse_behind hread hu.1
    rw [hns]
    exact hu.2.mono opened_as_mono

/-- A list is read only where the library is there. -/
theorem use_api_parsed {body : Skf (Found α)}
    (hmono : ∀ t u name a, t ⊆ u → Item t name a → Item u name a)
    (hbody : Holds (ParseSpec level Item) body) (api : Bool) :
    Holds (fun t o => ∀ list, Listed t level list →
      ∃ f, o = f.map (Prod.mk true) ∧ Parsed Item t (names list) f)
      (useApi api (stop 0) body) := by
  refine holds_mono (fun t o h list hlisted => ?_) (use_api_spec api (stop 0) hbody)
  cases h with
  | message _ hcalls => exact absurd hlisted (load_not_listed hcalls)
  | lost _ hcalls => exact absurd hlisted (load_not_listed hcalls)
  | used hcalls hno hkept hload hspec =>
    rename_i t u o
    rw [listed_append, or_iff_right (load_not_listed hcalls)] at hlisted
    exact ⟨o, rfl, (hspec list hlisted).mono hmono⟩

theorem made_mono (P : Parser) (t u : List SkfEvent) (name : Name) (a : P.Entry) (htu : t ⊆ u)
    (h : P.Made t name a) : P.Made u name a := by
  cases P with
  | containerNames hApp => exact h
  | devHandles => exact opened_as_mono t u name a htu h
  | appHandles hDev => exact opened_as_mono t u name a htu h
  | containerHandles hApp => exact opened_as_mono t u name a htu h

theorem parser_spec (P : Parser) (api : Bool) :
    Holds (fun t o => ∀ list, Listed t P.level list →
      ∃ f, o = f.map (Prod.mk true) ∧ Parsed P.Made t (names list) f) (P.get api) := by
  cases P with
  | devHandles => exact use_api_parsed opened_as_mono get_devices_parsed api
  | appHandles hDev =>
    exact use_api_parsed opened_as_mono
      (get_entries_parsed opened_as_mono open_handle_spec open_handle_proper) api
  | containerHandles hApp =>
    exact use_api_parsed opened_as_mono
      (get_entries_parsed opened_as_mono open_handle_spec open_handle_proper) api
  | containerNames hApp =>
    have hmono := made_mono (.containerNames hApp)
    exact use_api_parsed hmono (get_entries_parsed hmono copy_name_spec copy_name_proper) api

theorem parser_step (P : Parser) : P.step ≤ 1 := by
  cases P <;> simp [Parser.step]

theorem get_entries_parses {α : Type} (entry : Name → OutArray α → Skf (Except UInt32 α)) :
    getEntries level entry = readList level >>= parseList 1 entry finishEntries := by
  refine congrArg (readList level >>= ·) (funext fun r => ?_)
  cases r with
  | error rv => rfl
  | ok list =>
    simp only [parseList]
    cases countNames 1 0 list 0 with
    | none => rfl
    | some num =>
      cases num with
      | zero => rfl
      | succ num =>
        refine congrArg (malloc (num + 1) >>= ·) (funext fun ok => ?_)
        cases ok with
        | false => rfl
        | true =>
          refine congrArg (fillArray 1 entry list (num + 1) >>= ·) (funext fun out => ?_)
          cases out <;> rfl

theorem get_devices_parses :
    getDevices = readList .device >>= parseList 0 connectDev finishDevices := by
  refine congrArg (readList .device >>= ·) (funext fun r => ?_)
  cases r with
  | error rv => rfl
  | ok list =>
    simp only [parseList]
    cases countNames 0 0 list 0 with
    | none => rfl
    | some num =>
      dsimp only
      rw [if_neg (by simp)]
      refine congrArg (malloc num >>= ·) (funext fun ok => ?_)
      cases ok with
      | false => rfl
      | true =>
        refine congrArg (fillArray 0 connectDev list num >>= ·) (funext fun out => ?_)
        cases out <;> rfl

theorem get_parses (P : Parser) (api : Bool) :
    P.get api = useApi api (stop 0) (readList P.level >>= P.parse) := by
  cases P with
  | devHandles => exact congrArg (useApi api (stop 0)) get_devices_parses
  | appHandles hDev => exact congrArg (useApi api (stop 0)) (get_entries_parses _)
  | containerHandles hApp => exact congrArg (useApi api (stop 0)) (get_entries_parses _)
  | containerNames hApp => exact congrArg (useApi api (stop 0)) (get_entries_parses _)

/-- The reply of a token that holds the list, and of a system that has what it is asked for. -/
def Answer (list : List UInt8) : SkfEvent → Prop
  | ⟨.loadLibraryEx, ok⟩ | ⟨.vosMalloc, ok⟩ | ⟨.getProcAddress _, ok⟩ => (ok : Bool) = true
  | ⟨.malloc _, ok⟩ => (ok : Bool) = true
  | ⟨.enum _ none, r⟩ => (r : ListReply).rv = 0 ∧ (r : ListReply).list.length = list.length
  | ⟨.enum _ (some _), r⟩ => r = (⟨0, list⟩ : ListReply)
  | ⟨.openEntry _ _, r⟩ => (r : HandleReply).rv = 0
  | _ => True

def loadCalls (api : Bool) : List Call :=
  if api then [] else .loadLibraryEx :: .vosMalloc :: procNames.map .getProcAddress

def listCalls (level : Level) (length : ℕ) : List Call :=
  [.enum level none, .malloc length, .enum level (some length)]

theorem get_procs_follows (needed : List String) :
    Holds (Follows (Answer list) (needed.map Call.getProcAddress) (· = (true, none)))
      (getProcs needed) := by
  induction needed with
  | nil => exact follows_ret rfl
  | cons name needed ih =>
    refine follows_call fun found hfound => ?_
    obtain rfl : found = true := hfound
    exact ih

theorem get_skf_api_follows (api : Bool) :
    Holds (Follows (Answer list) (loadCalls api) (· = (true, none))) (getSkfApi api) := by
  cases api with
  | true => exact follows_ret rfl
  | false =>
    refine follows_call fun hModule hloaded => ?_
    obtain rfl : hModule = true := hloaded
    refine follows_call fun table hgot => ?_
    obtain rfl : table = true := hgot
    exact get_procs_follows procNames

theorem use_api_follows {cs : List Call} {A : α → Prop} {failed : α} {body : Skf α} (api : Bool)
    (hbody : Holds (Follows (Answer list) cs A) body) :
    Holds (Follows (Answer list) (loadCalls api ++ cs) fun r => r.1 = true ∧ A r.2)
      (useApi api failed body) := by
  refine follows_bind (get_skf_api_follows api) fun r hr => ?_
  subst hr
  rw [← List.append_nil cs]
  exact follows_bind hbody fun a ha => follows_ret ⟨rfl, ha⟩

theorem read_list_follows (hlen : 2 ≤ list.length) :
    Holds (Follows (Answer list) (listCalls level list.length) (· = .ok list))
      (readList level) := by
  refine follows_then fun r hr => ?_
  obtain ⟨hrv, hsize⟩ : r.rv = 0 ∧ r.list.length = list.length := hr
  rw [← hsize] at hlen ⊢
  rw [if_neg (not_not.mpr hrv), if_neg (Nat.not_lt.mpr hlen)]
  refine follows_then fun ok hok => ?_
  obtain rfl : ok = true := hok
  refine follows_then fun s hs => ?_
  obtain rfl : s = ⟨0, list⟩ := hs
  show Holds _ (if (0 : UInt32) ≠ 0 then _ else if r.list.length < list.length then _ else _)
  rw [if_neg (not_not.mpr rfl), if_neg (by omega)]
  exact follows_ret rfl

theorem entry_follows (P : Parser) (name : Name) (array : OutArray P.Entry) :
    Holds (Follows (Answer list) [P.call name] fun r => ∃ a, r = .ok a) (P.entry name array) := by
  cases P with
  | containerNames hApp =>
    refine follows_call fun ok hok => ?_
    obtain rfl : ok = true := hok
    exact follows_ret ⟨name, rfl⟩
  | devHandles | appHandles hDev | containerHandles hApp =>
    refine follows_call fun r hr => ?_
    have hrv : r.rv = 0 := hr
    show Holds _ (if r.rv ≠ 0 then _ else _)
    rw [if_neg (not_not.mpr hrv)]
    exact follows_ret ⟨r.handle, rfl⟩

theorem fill_array_follows (P : Parser) (hns : names list = some ns) :
    Holds (Follows (Answer list) (ns.map P.call) fun r => ∃ array, r = .ok array)
      (fillArray P.step P.entry list ns.length) := by
  rw [fillArray, walk_names (parser_step P) hns]
  refine follows_mono (fun r hr => ?_) (follows_iterate
    (I := fun rest array => array.cells.length + rest.length = array.size) ?_
    (Nat.zero_add ns.length))
  · obtain ⟨array, rfl, -⟩ := hr
    exact ⟨array, rfl⟩
  · intro name rest array hroom
    show Holds (Follows (Answer list) ([P.call name] ++ []) _) _
    refine follows_bind (entry_follows P name array) fun r hr => ?_
    obtain ⟨a, rfl⟩ := hr
    rw [List.length_cons] at hroom
    obtain ⟨b, hb, hsize, hcells⟩ := store_within (by omega : array.cells.length < array.size) a
    show Holds _ (storeNext array a)
    rw [storeNext, hb]
    refine follows_ret ⟨b, rfl, ?_⟩
    rw [hsize, hcells, List.length_append, List.length_singleton]
    omega

theorem parse_follows (P : Parser) (hns : names list = some ns) (hne : ns ≠ []) :
    Holds (Follows (Answer list) (.malloc ns.length :: ns.map P.call) fun _ => True)
      (P.parse (.ok list)) := by
  have hcount : countNames P.step 0 list 0 = some ns.length := by
    rw [count_names (parser_step P), hns, Option.map_some, Nat.zero_add]
  have hlen : ns.length ≠ 0 := List.length_eq_zero_iff.not.mpr hne
  simp only [Parser.parse, parseList, hcount]
  rw [if_neg fun h => hlen h.1]
  refine follows_call fun ok hok => ?_
  obtain rfl : ok = true := hok
  show Holds _ (fillArray P.step P.entry list ns.length >>= fun out =>
    pure (P.finish ns.length out))
  rw [← List.append_nil (ns.map P.call)]
  exact follows_bind (fill_array_follows P hns) fun _ _ => follows_ret trivial

/-- A listing that meets no failure ends with an entry for each of the names `ns`, and none is
undefined. -/
def ReturnsNames (P : Parser) (list : List UInt8) (ns : List Name) (t : List SkfEvent)
    (o : Option (Bool × Found P.Entry)) : Prop :=
  Listed t P.level list → o ≠ none ∧
    (¬ Failed t → ∃ array, o = some (true, ⟨0, some array, some ns.length⟩) ∧
      array.size = ns.length ∧ List.Forall₂ (P.Made t) ns array.cells)

/-- A run that gets what it asks for: its calls in their order, and an entry for each name. -/
structure Answered (P : Parser) (list : List UInt8) (ns : List Name) (api : Bool)
    (t : List SkfEvent) (o : Option (Bool × Found P.Entry)) : Prop where
  calls : t.map Sigma.fst =
    loadCalls api ++ (listCalls P.level list.length ++ .malloc ns.length :: ns.map P.call)
  listed : Listed t P.level list
  result : ∃ array, o = some (true, ⟨0, some array, some ns.length⟩) ∧
    array.size = ns.length ∧ List.Forall₂ (P.Made t) ns array.cells

/-- What a function makes of a list with the names `ns`: both of its loops end with the list
and go through these names, and the array is filled as far as it goes. -/
structure ReadsNames (P : Parser) (list : List UInt8) (ns : List Name) : Prop where
  parses : ∀ api, P.get api = useApi api (stop 0) (readList P.level >>= P.parse)
  ends : ∀ mem, slice mem 0 list.length = list →
    ∀ found, Loop mem list.length P.step 0 found list.length ↔ found = ns
  count : countNames P.step 0 list 0 = some ns.length
  visits : ∀ {α ρ : Type} (entry : Name → OutArray α → Skf (Except ρ α)) (size : ℕ),
    fillArray P.step entry list size =
      iterate (fun name array => (entry name array).proceed (storeNext array)) ns
        (OutArray.empty size)
  writes : ∀ {α ρ : Type} (entry : Name → OutArray α → Skf (Except ρ α)),
    (∀ name array, Holds (fun _ o => o ≠ none) (entry name array)) →
      Holds (fun _ o => o ≠ none) (fillArray P.step entry list ns.length)
  returns : ∀ api, Holds (ReturnsNames P list ns) (P.get api)
  answered : ∀ api, Holds (fun t o => (∀ e ∈ t, Answer list e) → Answered P list ns api t o)
    (P.get api)
  possible : ∀ api, ∃ env, Answered P list ns api (run env [] (P.get api)).1
    (run env [] (P.get api)).2

structure StepsAgree : Prop where
  loop : ∀ mem stop ns, 0 < stop → mem (stop - 1) = 0 →
    (Loop mem stop 0 0 ns stop ↔ Loop mem stop 1 0 ns stop)
  count : ∀ list n, countNames 0 0 list n = countNames 1 0 list n
  fill : ∀ {α ρ : Type} (entry : Name → OutArray α → Skf (Except ρ α)) list size,
    fillArray 0 entry list size = fillArray 1 entry list size

theorem steps_agree : StepsAgree where
  loop _ _ _ hpos hlast := loop_steps (Nat.zero_le 1) (Nat.le_refl 1) hpos hlast
  count list n := by rw [count_names (Nat.zero_le 1), count_names (Nat.le_refl 1)]
  fill _ _ _ := walk_steps (Nat.zero_le 1) (Nat.le_refl 1) _

theorem parser_returns (P : Parser) (hns : names list = some ns) (hne : ns ≠ []) (api : Bool) :
    Holds (ReturnsNames P list ns) (P.get api) := by
  refine holds_mono (fun t o h hlisted => ?_) (parser_spec P api)
  obtain ⟨f, rfl, hparsed⟩ := h list hlisted
  rw [hns] at hparsed
  cases hparsed with
  | empty f => exact absurd rfl hne
  | failed _ f hfailed => exact ⟨by simp, fun hno => absurd hfailed hno⟩
  | found _ array hsize hcells => exact ⟨by simp, fun _ => ⟨array, rfl, hsize, hcells⟩⟩

theorem answers_all (list : List UInt8) :
    ∃ env : List SkfEvent → (c : Call) → Reply c, ∀ hist c, Answer list ⟨c, env hist c⟩ := by
  have hreply : ∀ c, ∃ r, Answer list ⟨c, r⟩ := by
    intro c
    cases c with
    | enum level room =>
      cases room with
      | none => exact ⟨⟨0, list⟩, rfl, rfl⟩
      | some room => exact ⟨⟨0, list⟩, rfl⟩
    | openEntry level name => exact ⟨⟨0, 0⟩, rfl⟩
    | loadLibraryEx | vosMalloc | getProcAddress name | malloc size => exact ⟨true, rfl⟩
    | strdup | d2iX509 | writeCertificateToPemFile => exact ⟨true, trivial⟩
    | createContainer | digestInit | eccExportSessionKey | importSessionKey =>
      exact ⟨⟨0, 0⟩, trivial⟩
    | exportCertificate hContainer signFlag room => exact ⟨⟨0, 0⟩, trivial⟩
    | freeLibrary => exact ⟨(), trivial⟩
    | _ => exact ⟨0, trivial⟩
  choose answer hanswer using hreply
  exact ⟨fun _ c => answer c, fun _ c => hanswer c⟩

/-- With good replies none of the calls has failed, and the list has been listed. -/
theorem parser_answered (P : Parser) (hns : names list = some ns) (hne : ns ≠ [])
    (hlen : 2 ≤ list.length) (api : Bool) :
    Holds (fun t o => (∀ e ∈ t, Answer list e) → Answered P list ns api t o) (P.get api) := by
  have hfollows : Holds (Follows (Answer list)
      (loadCalls api ++ (listCalls P.level list.length ++ .malloc ns.length :: ns.map P.call))
      fun r => r.1 = true ∧ True) (P.get api) := by
    rw [get_parses]
    refine use_api_follows (A := fun _ => True) api
      (follows_bind (read_list_follows hlen) fun r hr => ?_)
    subst hr
    exact parse_follows P hns hne
  refine holds_mono (fun t o h hgood => ?_) (holds_and hfollows (parser_returns P hns hne api))
  obtain ⟨hcalls, -⟩ := h.1 hgood
  have hlisted : Listed t P.level list := by
    have hmem : Call.enum P.level (some list.length) ∈ t.map Sigma.fst := by
      rw [hcalls]
      simp [listCalls]
    obtain ⟨⟨c, r⟩, he, rfl⟩ := List.mem_map.mp hmem
    obtain rfl : r = ⟨0, list⟩ := hgood _ he
    exact ⟨list.length, he, Nat.le_refl _⟩
  have hno : ¬ Failed t := by
    rintro ⟨e, he, hfail⟩
    cases hfail with
    | opening level name r hr => exact hr (hgood _ he)
    | memory size => cases hgood _ he
  exact ⟨hcalls, hlisted, (h.2 hlisted).2 hno⟩

/-- A terminated list with names is read alike by all four functions, in both of their
loops. -/
theorem parsers_read_names (P : Parser) {list : List UInt8} (hlast : list.getLast? = some 0)
    (hnames : segments list ≠ []) : ReadsNames P list (segments list) ∧ StepsAgree := by
  have hlist : list ≠ [] := by
    rintro rfl
    cases hlast
  have hstep := parser_step P
  have hns := names_segments hlist hlast
  have hlen := names_length hns hnames
  have hanswered := parser_answered P hns hnames hlen
  refine ⟨?_, steps_agree⟩
  constructor
  · exact get_parses P
  · intro mem hmem found
    exact loop_names_iff hstep hns hmem
  · rw [count_names hstep, hns, Option.map_some, Nat.zero_add]
  · intro α ρ entry size
    exact walk_names hstep hns (OutArray.empty size)
  · intro α ρ entry hentry
    have hproper : ∀ name array, Holds (Proper fun _ => True) (entry name array) :=
      fun name array => holds_mono (fun _ _ h => ⟨h, fun _ _ => trivial⟩) (hentry name array)
    exact holds_mono (fun _ _ h => h.defined)
      (fill_array_proper hstep hns (fun _ _ => id) hproper)
  · exact parser_returns P hns hnames
  · exact hanswered
  · intro api
    obtain ⟨env, henv⟩ := answers_all list
    exact ⟨env, holds_run (hanswered api) env [] (run_good henv (P.get api))⟩

theorem parsers_read_names_sample :
    segments [65, 0, 0, 66, 67, 0] = [[65], [66, 67]] ∧
      ReadsNames .devHandles [65, 0, 0, 66, 67, 0] (segments [65, 0, 0, 66, 67, 0]) ∧
      StepsAgree :=
  ⟨by decide, parsers_read_names .devHandles (by decide) (by decide)⟩

/-- What a function does with a list is defined exactly where the list is terminated. -/
theorem parser_defined_iff (P : Parser) (api : Bool) :
    Holds (fun t o => ∀ list, Listed t P.level list → 2 ≤ list.length →
      (o ≠ none ↔ list.getLast? = some 0)) (P.get api) := by
  refine holds_mono (fun t o h list hlisted hlen => ?_) (parser_spec P api)
  obtain ⟨f, rfl, hparsed⟩ := h list hlisted
  have hne : list ≠ [] := List.ne_nil_of_length_pos (by omega)
  have hiff := names_none_iff hne
  cases hns : names list with
  | none =>
    rw [hns] at hparsed hiff
    cases hparsed
    exact iff_of_false (by simp) (hiff.mp rfl)
  | some ns =>
    rw [hns] at hparsed hiff
    refine iff_of_true ?_ (not_not.mp (hiff.not.mp (by simp)))
    cases hparsed <;> simp

/-- The loops of all four functions stay inside a list, and so end, where its last byte is a
NUL and nowhere else. -/
theorem parsers_stay_inside_iff (P : Parser) :
    (∀ mem len, 2 ≤ len → (StaysInside mem len P.step ↔ mem (len - 1) = 0)) ∧
      (∀ mem list, slice mem 0 list.length = list → 2 ≤ list.length →
        (countNames P.step 0 list 0 ≠ none ↔ StaysInside mem list.length P.step)) ∧
      ∀ api, Holds (fun t o => ∀ list, Listed t P.level list → 2 ≤ list.length →
        (o ≠ none ↔ list.getLast? = some 0)) (P.get api) := by
  refine ⟨fun mem len hlen => ?_, fun mem list hmem hlen => ?_, parser_defined_iff P⟩
  · exact stays_inside_iff (parser_step P) (by omega)
  · have hne : list ≠ [] := List.ne_nil_of_length_pos (by omega)
    exact counts_iff_stays_inside (parser_step P) hmem hne 0

/-- Two bytes "AA" without a NUL, which comes behind them: every loop reads that one. -/
theorem open_list_overrun :
    let mem : ℕ → UInt8 := fun i => if i < 2 then 65 else 0
    slice mem 0 2 = [65, 65] ∧ ¬ StaysInside mem 2 Parser.devHandles.step ∧
      ¬ StaysInside mem 2 (Parser.appHandles none).step ∧
      ¬ StaysInside mem 2 (Parser.containerHandles none).step ∧
      ¬ StaysInside mem 2 (Parser.containerNames none).step := by
  have hopen : ∀ P : Parser, ¬ StaysInside (fun i => if i < 2 then 65 else 0) 2 P.step := by
    intro P h
    exact absurd ((stays_inside_iff (parser_step P) (by decide)).mp h) (by decide)
  exact ⟨by decide, hopen _, hopen _, hopen _, hopen _⟩

end SkfListLoops
