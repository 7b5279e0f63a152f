import MakeDownFile.SkfApi

/-! # The function table

GetSKFAPI with the addresses it is given: where the table lies, what its entries are and which
module it has loaded. The token programs only see whether there is a table. -/
namespace SkfTable

open CallPrograms
open CallPrograms.Prog
open SkfApi (procNames)

structure Table where
  address : ℕ
  entries : List (String × ℕ)

inductive Call where
  | loadLibraryEx
  | vosMalloc
  | getProcAddress (hModule : ℕ) (name : String)
  | vosFree (address : ℕ)
  | freeLibrary (hModule : ℕ)
  | strdup (text : String)

/-- Addresses are NULL on failure. -/
abbrev Reply : Call → Type
  | .loadLibraryEx | .vosMalloc | .getProcAddress _ _ => Option ℕ
  | .strdup _ => Bool
  | .vosFree _ | .freeLibrary _ => Unit

abbrev Load := Prog Call Reply

abbrev LoadEvent := Event Reply

/-- The static pointer after a call, the pointer returned and the caller's error message. -/
structure Returned where
  api : Option Table
  table : Option Table
  errorMessage : Option String

def strdup (text : String) : Load (Option String) :=
  .call (.strdup text) fun (copied : Bool) => ret (if copied then some text else none)

/-- The lookups in turn. The first that fails takes everything back. -/
def getProcs (hModule : ℕ) (errorMessage : Option String) :
    List String → Table → Load Returned
  | [], api => ret ⟨some api, some api, errorMessage⟩
  | name :: rest, api => .call (.getProcAddress hModule name) fun (p : Option ℕ) =>
    match p with
    | some p => getProcs hModule errorMessage rest ⟨api.address, api.entries ++ [(name, p)]⟩
    | none => do
      let message ← strdup ("Failed to get procedure address for " ++ name)
      .call (.vosFree api.address) fun _ =>
        .call (.freeLibrary hModule) fun _ => ret ⟨none, none, message⟩

def getSkfApi (api : Option Table) (errorMessage : Option String) : Load Returned :=
  match api with
  | some api => ret ⟨some api, some api, errorMessage⟩
  | none => .call .loadLibraryEx fun (hModule : Option ℕ) =>
    match hModule with
    | none => do
      let message ← strdup "Failed to load library."
      ret ⟨none, none, message⟩
    | some hModule => .call .vosMalloc fun (address : Option ℕ) =>
      match address with
      | none => do
        let message ← strdup "Failed to allocate memory for SKF_API"
        .call (.freeLibrary hModule) fun _ => ret ⟨none, none, message⟩
      | some address => getProcs hModule errorMessage procNames ⟨address, []⟩

def loads : LoadEvent → Bool
  | ⟨.loadLibraryEx, (hModule : Option ℕ)⟩ => hModule.isSome
  | _ => false

def held (api : Option Table) : ℕ := if api.isSome then 1 else 0

section Calls

variable {t : List LoadEvent} {api : Option Table} {hModule : ℕ}

end Calls

/-- The program without its addresses, which is what the token programs are made of. Freeing the
table is no call there. -/
inductive Erases {α β : Type} (f : α → β) : Load α → SkfApi.Skf β → Prop where
  | ret (a : α) : Erases f (ret a) (ret (f a))
  | loadLibraryEx {k k'} (h : ∀ r : Option ℕ, Erases f (k r) (k' r.isSome)) :
      Erases f (.call .loadLibraryEx k) (.call .loadLibraryEx k')
  | vosMalloc {k k'} (h : ∀ r : Option ℕ, Erases f (k r) (k' r.isSome)) :
      Erases f (.call .vosMalloc k) (.call .vosMalloc k')
  | getProcAddress {hModule name k k'} (h : ∀ r : Option ℕ, Erases f (k r) (k' r.isSome)) :
      Erases f (.call (.getProcAddress hModule name) k) (.call (.getProcAddress name) k')
  | vosFree {address k p} (h : Erases f (k ()) p) : Erases f (.call (.vosFree address) k) p
  | freeLibrary {hModule k k'} (h : Erases f (k ()) (k' ())) :
      Erases f (.call (.freeLibrary hModule) k) (.call .freeLibrary k')
  | strdup {text k k'} (h : ∀ r : Bool, Erases f (k r) (k' r)) :
      Erases f (.call (.strdup text) k) (.call (.strdup text) k')

def eraseEvent : LoadEvent → Option SkfApi.SkfEvent
  | ⟨.loadLibraryEx, (r : Option ℕ)⟩ => some ⟨.loadLibraryEx, r.isSome⟩
  | ⟨.vosMalloc, (r : Option ℕ)⟩ => some ⟨.vosMalloc, r.isSome⟩
  | ⟨.getProcAddress _ name, (r : Option ℕ)⟩ => some ⟨.getProcAddress name, r.isSome⟩
  | ⟨.vosFree _, _⟩ => none
  | ⟨.freeLibrary _, _⟩ => some ⟨.freeLibrary, ()⟩
  | ⟨.strdup text, (r : Bool)⟩ => some ⟨.strdup text, r⟩

/-- What holds of a program holds of the one with addresses. -/
theorem erases_holds {α β : Type} {f : α → β} {p : Load α} {q : SkfApi.Skf β} (h : Erases f p q)
    {Q : List SkfApi.SkfEvent → Option β → Prop} (hq : Holds Q q) :
    Holds (fun t o => Q (t.filterMap eraseEvent) (o.map f)) p := by
  induction h generalizing Q with
  | ret a => exact hq
  | loadLibraryEx _ ih => exact fun r => ih r (hq r.isSome)
  | vosMalloc _ ih => exact fun r => ih r (hq r.isSome)
  | getProcAddress _ ih => exact fun r => ih r (hq r.isSome)
  | vosFree _ ih => exact fun _ => ih hq
  | freeLibrary _ ih => exact fun _ => ih (hq ())
  | strdup _ ih => exact fun r => ih r (hq r)

def Returned.erase (r : Returned) : Bool × Option String := (r.api.isSome, r.errorMessage)

theorem get_procs_erases (hModule : ℕ) (names : List String) (table : Table) :
    Erases Returned.erase (getProcs hModule none names table) (SkfApi.getProcs names) := by
  induction names generalizing table with
  | nil => exact .ret _
  | cons name rest ih =>
    refine .getProcAddress fun r => ?_
    cases r with
    | none => exact .strdup fun copied => .vosFree (.freeLibrary (.ret _))
    | some p => exact ih ⟨table.address, table.entries ++ [(name, p)]⟩

theorem get_skf_api_erases (api : Option Table) :
    Erases Returned.erase (getSkfApi api none) (SkfApi.getSkfApi api.isSome) := by
  cases api with
  | some table => exact .ret _
  | none =>
    refine .loadLibraryEx fun hModule => ?_
    cases hModule with
    | none => exact .strdup fun copied => .ret _
    | some hModule =>
      refine .vosMalloc fun address => ?_
      cases address with
      | none => exact .strdup fun copied => .freeLibrary (.ret _)
      | some address => exact get_procs_erases hModule procNames ⟨address, []⟩

theorem get_skf_api_load_spec :
    Holds (fun t o => SkfApi.LoadSpec procNames (t.filterMap eraseEvent) (o.map Returned.erase))
      (getSkfApi none none) := by
  have hspec := holds_mono (fun _ _ h => h.2 rfl) (SkfApi.get_skf_api_spec false)
  exact erases_holds (get_skf_api_erases none) hspec

end SkfTable
