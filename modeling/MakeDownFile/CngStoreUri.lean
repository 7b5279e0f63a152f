import MakeDownFile.CngStore
import MakeDownFile.PrefixChains

/-! # Store URIs

A URI names a system store by its front only, so what follows the name is ignored. -/
namespace CngStoreUri

open PrefixChains
open CngWorld
open CngStore

def scheme : List Char := ['c', 'n', 'g', ':', '/', '/']

def storeNames : List (List Char) := [['C', 'A'], ['M', 'Y'], ['R', 'O', 'O', 'T']]

def openedName (provctx : Option Addr) (uri : List Char) : Option (List Char) :=
  if areStoreOpenArgsOk provctx (some uri) then parseUriFromStoreOpen uri none else none

def Names (uri name : List Char) : Prop := name ∈ storeNames ∧ uri = scheme ++ name

instance (uri name : List Char) : Decidable (Names uri name) :=
  inferInstanceAs (Decidable (_ ∧ _))

theorem store_names_prefix_free : PrefixFree storeNames := by decide

theorem parse_uri_last_match (uri : List Char) (name : Option (List Char)) :
    parseUriFromStoreOpen uri name = lastMatch (uri.drop 6) storeNames name := rfl

theorem args_ok_iff {p : Addr} {uri : List Char} :
    areStoreOpenArgsOk (some p) (some uri) = true ↔ scheme <+: uri := by
  rw [← take_prefix_iff]
  exact decide_eq_true_iff

/-- What is accepted: a store name after the scheme, with anything behind it. -/
theorem opened_name_iff {p : Addr} {uri name : List Char} :
    openedName (some p) uri = some name ↔
      name ∈ storeNames ∧ ∃ rest, uri = scheme ++ name ++ rest := by
  rw [openedName, parse_uri_last_match]
  by_cases hs : scheme <+: uri
  · obtain ⟨str, rfl⟩ := hs
    rw [if_pos (args_ok_iff.mpr (List.prefix_append _ _))]
    have hdrop : (scheme ++ str).drop 6 = str := rfl
    rw [hdrop, last_match_iff store_names_prefix_free]
    apply and_congr_right
    intro _
    constructor
    · rintro ⟨rest, rfl⟩
      exact ⟨rest, (List.append_assoc _ _ _).symm⟩
    · rintro ⟨rest, heq⟩
      rw [List.append_assoc] at heq
      exact ⟨rest, (List.append_cancel_left heq).symm⟩
  · rw [if_neg fun h => hs (args_ok_iff.mp h)]
    constructor
    · intro h
      cases h
    · rintro ⟨_, rest, rfl⟩
      exact absurd ⟨name ++ rest, (List.append_assoc _ _ _).symm⟩ hs

theorem store_open_ignores_rest {name : List Char} (hname : name ∈ storeNames)
    (rest : List Char) (o : OpenCalls) (p : Addr) (w : World) :
    cngStoreOpen o (some p) (some (scheme ++ name ++ rest)) w =
      cngStoreOpen o (some p) (some (scheme ++ name)) w := by
  have hok : ∀ tail, areStoreOpenArgsOk (some p) (some (scheme ++ tail)) = true := fun tail =>
    args_ok_iff.mpr (List.prefix_append _ _)
  have hparse : ∀ tail, parseUriFromStoreOpen (scheme ++ (name ++ tail)) none = some name := by
    intro tail
    rw [parse_uri_last_match]
    exact (last_match_iff store_names_prefix_free).mpr ⟨hname, List.prefix_append _ _⟩
  have hparse' := hparse []
  rw [List.append_nil] at hparse'
  unfold cngStoreOpen
  simp only [List.append_assoc, hok, Option.getD_some, hparse, hparse']

/-- The URI checks recognise exactly the store URIs, except that a URI with something
behind a store name is taken for that store. -/
theorem store_uri_recognised_iff (p : Addr) (uri : List Char) :
    (∀ name, openedName (some p) uri = some name ↔ Names uri name) ↔
      ¬ ∃ name ∈ storeNames, ∃ rest, rest ≠ [] ∧ uri = scheme ++ name ++ rest := by
  constructor
  · rintro hall ⟨name, hname, rest, hrest, huri⟩
    have hopen : openedName (some p) uri = some name := opened_name_iff.mpr ⟨hname, rest, huri⟩
    obtain ⟨_, hexact⟩ := (hall name).mp hopen
    rw [hexact] at huri
    exact hrest (List.self_eq_append_right.mp huri)
  · intro hno name
    rw [opened_name_iff]
    constructor
    · rintro ⟨hname, rest, huri⟩
      by_cases hrest : rest = []
      · exact ⟨hname, by rw [huri, hrest, List.append_nil]⟩
      · exact absurd ⟨name, hname, rest, hrest, huri⟩ hno
    · rintro ⟨hname, huri⟩
      exact ⟨hname, [], by rw [huri, List.append_nil]⟩

theorem extended_name_opens_store : ¬ ∀ (p : Addr) (uri name : List Char),
    openedName (some p) uri = some name ↔ Names uri name := fun h =>
  absurd ((h 0 "cng://CARS".toList ['C', 'A']).mp (by decide)) (by decide)

end CngStoreUri
