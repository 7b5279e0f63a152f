import MakeDownFile.ConnectLoop
import MakeDownFile.TraceRuns

/-! # Runs of the loop that connects a client

The calls are answered in any way. What is asked and what is decided is about the last result of
SSL_connect, and the frees come once and in order. -/
namespace ConnectLoopRuns

open ConnectLoop
open StepRelations
open TraceRuns

def connectResult (e : Event) : Option ℤ := if e.1 = .sslConnect then some e.2 else none

def lastConnect (es : List Event) : Option ℤ := (es.filterMap connectResult).getLast?

def IsUse : Call → Prop
  | .returnSsl | .sslWrite | .sslRead => True
  | _ => False

instance (a : Call) : Decidable (IsUse a) := by
  cases a <;> simp only [IsUse] <;> infer_instance

def Used (es : List Event) : Prop := ∃ e ∈ es, IsUse e.1

def IsFree : Call → Prop
  | .sslFree | .sslCtxFree | .close => True
  | _ => False

instance (a : Call) : Decidable (IsFree a) := by
  cases a <;> simp only [IsFree] <;> infer_instance

def frees (es : List Event) : List Call := (es.map Prod.fst).filter IsFree

def connects (es : List Event) : ℕ := es.countP fun e => e.1 = .sslConnect

/-- What is asked about a result, or made of one, is about the last result of SSL_connect. -/
def AsksOfLast (es : List Event) (e : Event) : Prop :=
  match e.1 with
  | .sslGetError v | .bioSockShouldRetry v => lastConnect es = some v
  | .sslStateStringLong => ∃ v, lastConnect es = some v ∧ v ≤ 0
  | .returnSsl | .sslWrite | .sslRead => ∃ v, lastConnect es = some v ∧ 0 < v
  | _ => True

def Finished (s : State) : Prop := s.point = .returned ∨ s.point = .ended

section Observations

variable {e : Event} {es : List Event}

theorem last_connect_connect (h : e.1 = .sslConnect) : lastConnect (es ++ [e]) = some e.2 := by
  simp [lastConnect, connectResult, h]

theorem last_connect_other (h : e.1 ≠ .sslConnect) : lastConnect (es ++ [e]) = lastConnect es := by
  simp [lastConnect, connectResult, h]

theorem frees_append : frees (es ++ [e]) = frees es ++ if IsFree e.1 then [e.1] else [] := by
  by_cases h : IsFree e.1 <;> simp [frees, h]

theorem used_append : Used (es ++ [e]) ↔ Used es ∨ IsUse e.1 := by
  simp [Used, or_and_right, exists_or]

theorem not_used_nil : ¬ Used [] := by
  simp [Used]

end Observations

def HoldsResult : Point → Prop
  | .connect | .select => False
  | _ => True

def sinceSelect (es : List Event) : ℕ :=
  es.foldl (fun n e =>
    match e.1 with
    | .select _ => 0
    | .sslConnect => n + 1
    | _ => n) 0

def WithinBudget (s : State) (n : ℕ) : Prop :=
  match s.point with
  | .connect => n = 0
  | .getError => n = 1
  | .sleep | .reconnect => (n : ℤ) + s.retry = 200 ∧ 0 ≤ s.retry
  | .regetError => (n : ℤ) + s.retry = 201 ∧ 0 ≤ s.retry
  | _ => n ≤ 201

def freed : Point → List Call
  | .ctxFree => [.sslFree]
  | .close => [.sslFree, .sslCtxFree]
  | .ended => [.sslFree, .sslCtxFree, .close]
  | _ => []

/-- How the connection has been used at a point, by the result that was decided on. -/
def UsedRightly (s : State) (used : Prop) : Prop :=
  match s.point with
  | .returnSsl | .write => 0 < s.connectSSL ∧ ¬ used
  | .returned | .read | .reread | .rewrite | .lastRead => 0 < s.connectSSL ∧ used
  | .sslFree | .ctxFree | .close | .ended => used ↔ 0 < s.connectSSL
  | _ => ¬ used

def PrintsFailure (s : State) : Prop := s.point = .stateString → s.connectSSL ≤ 0

section Invariants

variable {c : Client} {s t : State} {e : Event} {es : List Event}

theorem result_step (hs : HoldsResult s.point → lastConnect es = some s.connectSSL)
    (h : Moves c s e t) : HoldsResult t.point → lastConnect (es ++ [e]) = some t.connectSSL := by
  intro hresult
  cases h with
  | connects r | fails r | reconnects r => exact last_connect_connect rfl
  | gets | selects => exact hresult.elim
  | retries r n hn hat =>
    rw [last_connect_other (by simp)]
    exact hs (by rcases hat with ⟨hat, -⟩ | ⟨hat, -⟩ <;> simp [HoldsResult, hat])
  | givesUp r n hat | leaves r n hat =>
    rw [last_connect_other (by simp)]
    exact hs (by rcases hat with hat | hat <;> simp [HoldsResult, hat])
  | sleeps r hat | prints r hat | waits r hat | loses r hat | keeps r hat =>
    rw [last_connect_other (by simp)]
    exact hs (by simp [HoldsResult, hat])
  | behind a r p hbehind =>
    have hheld : HoldsResult s.point ∧ a ≠ .sslConnect := by
      generalize s.point = p₀ at hbehind
      cases hbehind <;> exact ⟨trivial, by simp⟩
    rw [last_connect_other hheld.2]
    exact hs hheld.1

theorem freed_step (hs : frees es = freed s.point) (h : Moves c s e t) :
    frees (es ++ [e]) = freed t.point := by
  rw [frees_append, hs]
  cases h with
  | connects r hat | fails r hat | sleeps r hat | reconnects r hat | prints r hat | waits r hat
  | gets r hat | selects r hat | loses r hat => simp [hat, freed, IsFree]
  | retries r n hn hat => rcases hat with ⟨hat, -⟩ | ⟨hat, -⟩ <;> simp [hat, freed, IsFree]
  | givesUp r n hat | leaves r n hat => rcases hat with hat | hat <;> simp [hat, freed, IsFree]
  | keeps r hat => cases c <;> simp [hat, freed, IsFree, Client.used]
  | behind a r p hbehind =>
    generalize s.point = p₀ at hbehind
    cases hbehind <;> rfl

theorem printed_step (h : Moves c s e t) : PrintsFailure t := by
  intro hat
  cases h with
  | givesUp r n _ hle => exact hle
  | keeps => cases c <;> simp [Client.used] at hat
  | behind a r p hbehind =>
    obtain rfl : p = .stateString := hat
    generalize s.point = p₀ at hbehind
    cases hbehind
  | connects | fails | retries | sleeps | reconnects | leaves | prints | waits | gets | selects
  | loses => simp at hat

theorem used_step (hs : UsedRightly s (Used es)) (h : Moves c s e t) :
    UsedRightly t (Used (es ++ [e])) := by
  rw [used_append]
  cases h with
  | connects r hat | fails r hat | sleeps r hat | reconnects r hat | prints r hat | waits r hat
  | gets r hat | selects r hat =>
    simp only [UsedRightly, hat] at hs
    simpa [UsedRightly, IsUse] using hs
  | retries r n hn hat =>
    have hunused : ¬ Used es := by
      rcases hat with ⟨hat, -⟩ | ⟨hat, -⟩ <;> simpa only [UsedRightly, hat] using hs
    simpa [UsedRightly, IsUse] using hunused
  | givesUp r n hat | leaves r n hat =>
    have hunused : ¬ Used es := by
      rcases hat with hat | hat <;> simpa only [UsedRightly, hat] using hs
    simpa [UsedRightly, IsUse] using hunused
  | loses r hat hle =>
    simp only [UsedRightly, hat] at hs
    simpa [UsedRightly, IsUse, hs] using hle
  | keeps r hat hpos =>
    simp only [UsedRightly, hat] at hs
    cases c <;> simpa [UsedRightly, IsUse, Client.used, hs] using hpos
  | behind a r p hbehind =>
    unfold UsedRightly at hs ⊢
    generalize s.point = p₀ at hbehind hs
    cases hbehind <;> simp_all [IsUse]

theorem since_append : sinceSelect (es ++ [e]) =
    match e.1 with
    | .select _ => 0
    | .sslConnect => sinceSelect es + 1
    | _ => sinceSelect es := by
  rw [sinceSelect, List.foldl_append]
  rfl

/-- Every retry is paid for from the 200 that there are. -/
theorem budget_step (hs : WithinBudget s (sinceSelect es)) (h : Moves c s e t) :
    WithinBudget t (sinceSelect (es ++ [e])) := by
  rw [since_append]
  cases h with
  | selects => rfl
  | connects r hat | fails r hat | sleeps r hat | reconnects r hat | prints r hat | waits r hat
  | gets r hat | loses r hat =>
    simp only [WithinBudget, hat] at hs ⊢
    omega
  | retries r n hn hat =>
    rcases hat with ⟨hat, rfl⟩ | ⟨hat, rfl⟩
    · simp only [WithinBudget, hat] at hs ⊢
      omega
    · simp only [WithinBudget, hat] at hs ⊢
      omega
  | givesUp r n hat | leaves r n hat =>
    rcases hat with hat | hat
    · simp only [WithinBudget, hat] at hs ⊢
      omega
    · simp only [WithinBudget, hat] at hs ⊢
      omega
  | keeps r hat =>
    simp only [WithinBudget, hat] at hs
    cases c <;> exact hs
  | behind a r p hbehind =>
    unfold WithinBudget at hs ⊢
    generalize s.point = p₀ at hbehind hs
    cases hbehind <;> exact hs

theorem asks_of_move (hresult : HoldsResult s.point → lastConnect es = some s.connectSSL)
    (hprints : PrintsFailure s) (hused : UsedRightly s (Used es)) (h : Moves c s e t) :
    AsksOfLast es e := by
  cases h with
  | connects | fails | sleeps | reconnects | gets | selects => trivial
  | retries r n hn hat =>
    exact hresult (by rcases hat with ⟨hat, -⟩ | ⟨hat, -⟩ <;> simp [HoldsResult, hat])
  | givesUp r n hat | leaves r n hat =>
    exact hresult (by rcases hat with hat | hat <;> simp [HoldsResult, hat])
  | waits r hat | loses r hat | keeps r hat => exact hresult (by simp [HoldsResult, hat])
  | prints r hat => exact ⟨s.connectSSL, hresult (by simp [HoldsResult, hat]), hprints hat⟩
  | behind a r p hbehind =>
    unfold UsedRightly at hused
    generalize s.point = p₀ at hbehind hused hresult
    cases hbehind <;>
      first | trivial | exact ⟨s.connectSSL, hresult trivial, hused.1⟩

structure Invariant (es : List Event) (s : State) : Prop where
  result : HoldsResult s.point → lastConnect es = some s.connectSSL
  printed : PrintsFailure s
  used : UsedRightly s (Used es)
  freed : frees es = freed s.point
  budget : WithinBudget s (sinceSelect es)
  asked : Always AsksOfLast [] es

theorem invariant_start : Invariant [] start where
  result h := h.elim
  printed h := by simp [start] at h
  used := not_used_nil
  freed := rfl
  budget := rfl
  asked := trivial

theorem invariant_step (hs : Invariant es s) (h : step c s e = some t) :
    Invariant (es ++ [e]) t where
  result := result_step hs.result (moves_of_step h)
  printed := printed_step (moves_of_step h)
  used := used_step hs.used (moves_of_step h)
  freed := freed_step hs.freed (moves_of_step h)
  budget := budget_step hs.budget (moves_of_step h)
  asked := always_append.mpr
    ⟨hs.asked, asks_of_move hs.result hs.printed hs.used (moves_of_step h), trivial⟩

theorem invariant_run (h : run c es = some s) : Invariant es s :=
  after_invariant (fun _ _ _ _ hs hstep => invariant_step hs hstep) invariant_start h

/-- A run that is finished has decided on the last result. -/
theorem decided (h : run c es = some s) (hfinished : Finished s) :
    ∃ r, lastConnect es = some r ∧ (Used es ↔ 0 < r) ∧
      (r ≤ 0 → frees es = [.sslFree, .sslCtxFree, .close]) := by
  obtain ⟨hresult, -, hused, hfreed, -, -⟩ := invariant_run h
  unfold UsedRightly at hused
  refine ⟨s.connectSSL, hresult ?_, ?_, fun hle => ?_⟩
  · rcases hfinished with hat | hat <;> simp [HoldsResult, hat]
  · rcases hfinished with hat | hat
    · simp only [hat] at hused
      exact iff_of_true hused.2 hused.1
    · simpa only [hat] using hused
  · rcases hfinished with hat | hat
    · simp only [hat] at hused
      exact absurd hused.1 (Int.not_lt.mpr hle)
    · rw [hfreed, hat]
      rfl

end Invariants

section Ends

variable {c : Client} {s t : State} {n : ℕ}

def Follows (c : Client) (s t : State) : Prop := ∃ e, step c s e = some t

def BehindLoop : Point → Prop
  | .returnSsl | .write | .read | .reread | .rewrite | .lastRead | .sslFree | .ctxFree | .close
  | .returned | .ended => True
  | _ => False

def toGo : Point → ℕ
  | .write => 8
  | .read => 7
  | .reread => 6
  | .rewrite => 5
  | .lastRead => 4
  | .sslFree => 3
  | .ctxFree => 2
  | .close | .returnSsl => 1
  | _ => 0

theorem call_none_iff : call s = none ↔ Finished s := by
  unfold call Finished
  cases s.point <;> simp

theorem stuck_iff_finished : Stuck (Follows c) s ↔ Finished s := by
  rw [← call_none_iff]
  constructor
  · intro hstuck
    by_contra hcall
    obtain ⟨a, ha⟩ := Option.ne_none_iff_exists'.mp hcall
    exact hstuck _ ⟨(a, 0), if_pos ha⟩
  · rintro hcall t ⟨e, he⟩
    have hsome := (step_eq_some he).1
    rw [hcall] at hsome
    cases hsome

theorem behind_down {p p' : Point} {a : Call} (h : Behind p a p') :
    BehindLoop p' ∧ toGo p' < toGo p := by
  cases h <;> exact ⟨trivial, by decide⟩

theorem behind_step (hs : BehindLoop s.point) (h : Follows c s t) :
    BehindLoop t.point ∧ toGo t.point < toGo s.point := by
  obtain ⟨e, he⟩ := h
  cases moves_of_step he with
  | connects r hat | fails r hat | sleeps r hat | reconnects r hat | prints r hat | waits r hat
  | gets r hat | selects r hat | loses r hat | keeps r hat =>
    rw [hat] at hs
    exact hs.elim
  | retries r n hn hat =>
    rcases hat with ⟨hat, -⟩ | ⟨hat, -⟩ <;> (rw [hat] at hs; exact hs.elim)
  | givesUp r n hat | leaves r n hat =>
    rcases hat with hat | hat <;> (rw [hat] at hs; exact hs.elim)
  | behind a r p hbehind => exact behind_down hbehind

/-- Behind the loop at most eight calls are left, and then the code is finished. -/
theorem left_loop_finishes (hs : BehindLoop s.point) :
    (∀ n t, Run (Follows c) n s t → n ≤ 8) ∧ ∃ n t, Run (Follows c) n s t ∧ Finished t := by
  have hkeep : ∀ s t, BehindLoop s.point → Follows c s t → BehindLoop t.point :=
    fun s t hs h => (behind_step hs h).1
  have hless : ∀ s t, BehindLoop s.point → Follows c s t → toGo t.point < toGo s.point :=
    fun s t hs h => (behind_step hs h).2
  constructor
  · intro n t h
    have hbound := run_bounded hkeep hless hs h
    have htoGo : toGo s.point ≤ 8 := by
      cases s.point <;> decide
    omega
  · obtain ⟨n, t, h, -, hstuck⟩ := run_to_stuck hkeep hless hs
    exact ⟨n, t, h, stuck_iff_finished.mp hstuck⟩

end Ends

end ConnectLoopRuns
