import MakeDownFile.SkfContainers

/-! # What the return code of a listing says

Where the functions that list a token return 0 without having set their outputs, and where
main then reads a count that nothing has set. -/
namespace SkfCounts

open CallPrograms
open CallPrograms.Prog
open SkfApi
open SkfContainers
open SkfEnumeration
open SkfTokenProgram
open SkfTokenRuns

theorem only_stage {A : Call → Prop} {α β : Type} {failed : α} {body : Skf α}
    {f : Bool × α → Skf β} (hbody : Only A body) (hf : ∀ a, Only A (f (true, a))) :
    Only A (useApi true failed body >>= f) := by
  rw [use_api_loaded, then_assoc]
  exact only_bind hbody hf

section Quiet

variable (hDev hApp : Option ℕ) (hCon : ℕ) {f : Bool × UInt32 → Skf UInt32}

theorem export_test_quiet : Only Quiet (exportTest hDev hCon) := by
  refine only_mono (fun c hc => ?_) (export_test_calls hDev hCon)
  cases c <;> trivial

theorem key_pair_test_quiet (hf : ∀ rv, Only Quiet (f (true, rv))) :
    Only Quiet (keyPairTest hDev hApp true >>= f) := by
  refine only_stage ?_ hf
  refine only_then trivial fun rv => only_ite (only_ret rv) ?_
  refine only_then trivial fun r => only_ite ?_ (only_ite (only_ret r.rv) ?_)
  · refine only_then trivial fun _ => only_in_turn ?_
    simp only [List.forall_mem_cons]
    exact ⟨only_call trivial, only_call trivial, export_test_quiet hDev r.handle, by simp⟩
  · refine only_then trivial fun c => only_ite (only_ret c.rv) (only_in_turn ?_)
    simp only [List.forall_mem_cons]
    exact ⟨only_call trivial, only_call trivial, export_test_quiet hDev c.handle, by simp⟩

theorem import_key_pair_quiet (hf : ∀ rv, Only Quiet (f (true, rv))) :
    Only Quiet (importSm2KeyPairTest hDev hApp true >>= f) := by
  refine only_stage ?_ hf
  refine only_then trivial fun r => only_ite (only_ret r.rv) ?_
  refine only_then trivial fun rv => only_ite (only_ret rv) ?_
  refine only_then trivial fun cipher => only_ite trivial ?_
  refine only_then trivial fun key => only_ite (only_ret key.rv) (only_bind (only_in_turn ?_) ?_)
  · simp only [List.forall_mem_cons]
    exact ⟨only_call trivial, only_call trivial, only_call trivial, by simp⟩
  · intro rv
    apply only_ite (only_ret rv)
    exact only_then trivial fun blob => only_ite trivial (only_call trivial)

theorem import_session_key_quiet (hf : ∀ rv, Only Quiet (f (true, rv))) :
    Only Quiet (importSessionKeyTest hDev hApp true >>= f) := by
  refine only_stage ?_ hf
  refine only_then trivial fun r => only_ite (only_ret r.rv) ?_
  refine only_then trivial fun _ => only_then trivial fun rv => only_ite (only_ret rv) ?_
  refine only_then trivial fun cipher => only_ite trivial ?_
  refine only_then trivial fun key => only_ite (only_ret key.rv) ?_
  exact only_then trivial fun s => only_ret s.rv

theorem close_token_quiet (hf : ∀ rv, Only Quiet (f (true, rv))) :
    Only Quiet (closeToken hDev hApp true >>= f) := by
  refine only_stage ?_ hf
  refine only_then trivial fun rv => only_ite (only_ret 0) ?_
  exact only_then trivial fun _ => only_ret 0

theorem run_tests_quiet : Only Quiet (runTests hDev hApp true) := by
  refine key_pair_test_quiet hDev hApp fun rv => only_ite (only_ret 0) ?_
  refine import_key_pair_quiet hDev hApp fun rv => only_ite (only_ret 0) ?_
  refine import_session_key_quiet hDev hApp fun rv => only_ite (only_ret 0) ?_
  exact close_token_quiet hDev hApp fun rv => only_ret rv

end Quiet

/-- A count is read unset exactly when a message has been set or a device has listed no
application. -/
theorem main_balanced (env : List SkfEvent → (c : Call) → Reply c) :
    Balanced (run env [] main).1 := by
  rcases main_cases env with ⟨hsound, -⟩ | ⟨t, api, -, hsound, hready, hrun⟩
  · exact hsound.balanced
  rw [hrun]
  cases api with
  | true =>
    have hquiet := holds_run (only_holds (run_tests_quiet none none)) env t
    exact balanced_append hsound.balanced (balanced_of_quiet hquiet)
  | false =>
    obtain ⟨-, hread, hmessage⟩ := hready
    exact balanced_spoilt hread hmessage _

def SucceedsValid {α : Type} (env : List SkfEvent → (c : Call) → Reply c) (hist : List SkfEvent)
    (Valid : List SkfEvent → α → Prop) (p : Skf (Bool × Found α)) : Prop :=
  SuccessMeansValid Valid (run env hist p).1 (run env hist p).2

/-- Exactly where the functions return 0 with valid outputs only, and where main reads no
count that is not set. -/
theorem skf_success_iff (env : List SkfEvent → (c : Call) → Reply c) (hist : List SkfEvent)
    (api : Bool) (hDev hApp : Option ℕ) :
    (SucceedsValid env hist (ValidHandle .device) (getDevHandles api) ↔
      ¬ ErrorMessage (run env hist (getDevHandles api)).1) ∧
    (SucceedsValid env hist (ValidHandle (.application hDev)) (getAppHandles hDev api) ↔
      ¬ ErrorMessage (run env hist (getAppHandles hDev api)).1 ∧
        ListsNames (.application hDev) (run env hist (getAppHandles hDev api)).1) ∧
    (SucceedsValid env hist (ValidHandle (.container hApp)) (getContainerHandles hApp api) ↔
      ¬ ErrorMessage (run env hist (getContainerHandles hApp api)).1 ∧
        ListsNames (.container hApp) (run env hist (getContainerHandles hApp api)).1) ∧
    (SucceedsValid env hist (ValidName (.container hApp)) (getContainerNames hApp api) ↔
      ¬ ErrorMessage (run env hist (getContainerNames hApp api)).1 ∧
        ListsNames (.container hApp) (run env hist (getContainerNames hApp api)).1) ∧
    (¬ UnsetRead (run env [] main).1 ↔
      ¬ ErrorMessage (run env [] main).1 ∧ AppsNamed (run env [] main).1) := by
  refine ⟨?_, ?_, ?_, ?_, ?_⟩
  · exact holds_run (dev_handles_success_iff api) env hist
  · exact holds_run (app_handles_success_iff hDev api) env hist
  · exact holds_run (container_handles_success_iff hApp api) env hist
  · exact holds_run (container_names_success_iff hApp api) env hist
  · have hbalanced : UnsetRead (run env [] main).1 ↔
        ErrorMessage (run env [] main).1 ∨ ¬ AppsNamed (run env [] main).1 := main_balanced env
    rw [hbalanced, not_or, not_not]

/-- Without the library GetDevHandles returns 0 and sets nothing. -/
theorem missing_library_succeeds :
    ¬ SucceedsValid (emptyToken false) [] (ValidHandle .device) (getDevHandles false) := by
  intro h
  obtain ⟨array, harray, -⟩ := h false (stop 0) rfl rfl
  cases harray

end SkfCounts
