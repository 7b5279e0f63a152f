import MakeDownFile.SkfTokenRuns

/-! # The handles that main passes to its tests

Listing the token, main uses open handles only. The tests get its own handles, which stay
NULL, and the first of them to find the library passes one on. -/
namespace SkfHandles

open CallPrograms
open CallPrograms.Prog
open SkfApi
open SkfEnumeration
open SkfTokenProgram
open SkfTokenRuns
open TraceRuns

/-- The first of the calls gets a handle that is open after no calls at all. -/
def StartsBadly (t : List SkfEvent) : Prop := ∃ e u, t = e :: u ∧ ∀ hist, ¬ UsesOk hist e.1

/-- The calls use open handles unless the library is there. -/
def TestSpec (api : Bool) (t : List SkfEvent) : Prop :=
  ∀ hist, Always (fun hist e => UsesOk hist e.1) hist t ↔ ¬ (api = true ∨ Loaded t)

section Tests

variable {t u : List SkfEvent} {api : Bool}

theorem loaded_append : Loaded (t ++ u) ↔ Loaded t ∨ Loaded u := hasProc_append

theorem load_calls_open (h : ∀ e ∈ t, LoadCall e.1) (hist : List SkfEvent) :
    Always (fun hist e => UsesOk hist e.1) hist t := by
  refine always_of_forall fun hist e he => ?_
  have hcall := h e he
  revert hcall
  cases e.1 <;> first | exact fun _ => trivial | exact fun hno => hno.elim

theorem starts_badly_append (hu : StartsBadly u) (v : List SkfEvent) : StartsBadly (u ++ v) := by
  obtain ⟨e, w, rfl, hbad⟩ := hu
  exact ⟨e, w ++ v, rfl, hbad⟩

theorem bad_test (hu : StartsBadly u) (hload : api = true ∨ Loaded t) :
    TestSpec api (t ++ u) := by
  intro hist
  refine iff_of_false (fun hall => ?_) (fun hno => hno ?_)
  · obtain ⟨e, w, rfl, hbad⟩ := hu
    exact hbad _ (always_append.mp hall).2.1
  · rw [loaded_append]
    rcases hload with h | h
    · exact Or.inl h
    · exact Or.inr (Or.inl h)

theorem table_loaded (hload : api = false → LibraryLoads t) : api = true ∨ Loaded t := by
  cases api with
  | true => exact Or.inl rfl
  | false => exact Or.inr (hload rfl _ last_proc_mem)

theorem test_stage {α : Type} {failed : α} {body : Skf α} {f : Bool × α → Skf UInt32}
    (hbody : Holds (fun u _ => StartsBadly u) body)
    (hf : Holds (fun v _ => TestSpec false v) (f (false, failed))) :
    Holds (fun v _ => TestSpec api v) (useApi api failed body >>= f) := by
  apply holds_bind (use_api_spec api failed hbody)
  · intro v hv
    generalize ho : none = o at hv
    cases hv with
    | message hapi hcalls hmessage hload => cases ho
    | lost hapi hcalls hno hload =>
      have hnot : ¬ Loaded v := hload
      intro hist
      exact iff_of_true (load_calls_open hcalls hist) (by simp [hapi, hnot])
    | used hcalls hno hkept hload hbad =>
      exact bad_test hbad (table_loaded hload)
  · intro v r hv
    generalize ho : some r = o at hv
    cases hv with
    | message hapi hcalls hmessage hload =>
      cases ho
      refine holds_mono (fun w o hw hist => ?_) hf
      have hopen := load_calls_open hcalls hist
      have hnot : ¬ Loaded v := hload
      subst hapi
      rw [always_append, hw, loaded_append, or_iff_right hnot, and_iff_right hopen]
    | lost hapi hcalls hno hload => cases ho
    | used hcalls hno hkept hload hbad =>
      refine holds_of_forall fun w o => ?_
      rw [List.append_assoc]
      exact bad_test (starts_badly_append hbad w) (table_loaded hload)

theorem null_application (hist : List SkfEvent) : ¬ AppOpen hist none := by
  rintro ⟨a, ⟨⟩, -⟩

theorem bad_then {α : Type} {c : Call} {f : Reply c → Skf α} (hc : ∀ hist, ¬ UsesOk hist c) :
    Holds (fun u _ => StartsBadly u) (.call c ret >>= f) :=
  fun r => holds_of_forall fun u _ => ⟨⟨c, r⟩, u, rfl, hc⟩

theorem run_tests_spec (api : Bool) :
    Holds (fun t _ => TestSpec api t) (runTests none none api) := by
  refine test_stage (bad_then null_application) ?_
  simp only [ne_eq, not_true_eq_false, if_false]
  refine test_stage (bad_then null_application) ?_
  simp only [not_true_eq_false, if_false]
  refine test_stage (bad_then null_application) ?_
  simp only [not_true_eq_false, if_false]
  refine test_stage (bad_then null_application) ?_
  exact fun hist => by simp [Loaded, HasProc, Always]

end Tests

/-- Past the listing everything depends on whether the library is loaded. -/
theorem tests_open_iff {env : List SkfEvent → (c : Call) → Reply c} {t : List SkfEvent}
    {api : Bool} (hsound : Sound t) (hready : ReadyForTests t api) :
    HandlesOpen (t ++ (run env t (runTests none none api)).1) ↔
      ¬ Loaded (t ++ (run env t (runTests none none api)).1) := by
  have htests := holds_run (run_tests_spec api) env t t
  have hlisted : Always (fun hist e => UsesOk hist e.1) [] t := hsound.handles
  have hloaded : api = true ↔ Loaded t := by
    cases api with
    | true => exact iff_of_true rfl hready
    | false => exact iff_of_false (by decide) hready.1
  rw [HandlesOpen, always_append, List.nil_append, loaded_append, and_iff_right hlisted, ← hloaded]
  exact htests

/-- main passes on open handles only, unless it comes to its tests and the library is loaded
then. -/
theorem token_program_handles_iff (env : List SkfEvent → (c : Call) → Reply c) :
    HandlesOpen (run env [] main).1 ↔
      ¬ ((∃ t api, run env [] listToken = (t, some (some api))) ∧ Loaded (run env [] main).1) := by
  rcases main_cases env with ⟨hsound, hno⟩ | ⟨t, api, hlisted, hsound, hready, hrun⟩
  · refine iff_of_true hsound.handles ?_
    rintro ⟨⟨t, api, h⟩, -⟩
    exact hno t api h
  · rw [hrun, tests_open_iff hsound hready, and_iff_right ⟨t, api, hlisted⟩]

/-- With no device at the token the tests run on NULL. -/
theorem tests_get_null : ¬ HandlesOpen (run (emptyToken true) [] main).1 := by
  have hlisted : (run (emptyToken true) [] listToken).2 = some (some true) := by decide +kernel
  rcases main_cases (emptyToken true) with ⟨-, hno⟩ | ⟨t, api, hrun, hsound, hready, htrace⟩
  · exact absurd (Prod.ext rfl hlisted) (hno (run (emptyToken true) [] listToken).1 true)
  · rw [hrun] at hlisted
    cases hlisted
    rw [htrace, tests_open_iff hsound hready, not_not]
    exact List.mem_append_left _ hready

end SkfHandles
