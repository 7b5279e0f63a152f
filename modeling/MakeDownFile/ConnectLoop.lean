import MakeDownFile.StepRelations
import Mathlib.Data.Int.Notation

/-! # The loop that connects a client

`connectSSL` holds what SSL_connect returned, and the descriptor of the socket while the loop
waits for it. -/
namespace ConnectLoop

open StepRelations

inductive Client where
  | createSslConect
  | tasslMain
  | gmMain
  deriving DecidableEq, Repr

/-- The calls, `returnSsl` being the return of the connection to the caller. -/
inductive Call where
  | sslConnect
  | sslGetError (ret : ℤ)
  | usleep (usec : ℕ)
  | sslStateStringLong
  | bioSockShouldRetry (i : ℤ)
  | sslGetFd
  | select (width : ℤ)
  | returnSsl
  | sslWrite
  | sslRead
  | sslFree
  | sslCtxFree
  | close
  deriving DecidableEq, Repr

abbrev Event := Call × ℤ

/-- The call that comes next; `returned` and `ended` are behind the last. -/
inductive Point where
  | connect
  | getError
  | sleep
  | reconnect
  | regetError
  | stateString
  | shouldRetry
  | getFd
  | select
  | returnSsl
  | write
  | read
  | reread
  | rewrite
  | lastRead
  | sslFree
  | ctxFree
  | close
  | returned
  | ended
  deriving DecidableEq, Repr

structure State where
  point : Point
  connectSSL : ℤ
  err : ℤ
  retry : ℤ
  deriving DecidableEq, Repr

def sslErrorWantRead : ℤ := 2
def sslErrorWantWrite : ℤ := 3

def start : State := ⟨.connect, 0, 0, 0⟩

def call (s : State) : Option Call :=
  match s.point with
  | .connect | .reconnect => some .sslConnect
  | .getError | .regetError => some (.sslGetError s.connectSSL)
  | .sleep => some (.usleep 50)
  | .stateString => some .sslStateStringLong
  | .shouldRetry => some (.bioSockShouldRetry s.connectSSL)
  | .getFd => some .sslGetFd
  | .select => some (.select (s.connectSSL + 1))
  | .returnSsl => some .returnSsl
  | .write | .rewrite => some .sslWrite
  | .read | .reread | .lastRead => some .sslRead
  | .sslFree => some .sslFree
  | .ctxFree => some .sslCtxFree
  | .close => some .close
  | .returned | .ended => none

def behindWhile (s : State) : State :=
  if s.connectSSL ≤ 0 then { s with point := .stateString } else { s with point := .shouldRetry }

/-- The condition of the inner loop, with its post-decrement. -/
def whileTest (s : State) : State :=
  if s.err = sslErrorWantRead ∨ s.err = sslErrorWantWrite then
    if s.retry ≠ 0 then { s with retry := s.retry - 1, point := .sleep }
    else behindWhile { s with retry := s.retry - 1 }
  else behindWhile s

def Client.used : Client → Point
  | .createSslConect => .returnSsl
  | .tasslMain => .write
  | .gmMain => .write

def behindLoop (c : Client) (s : State) : State :=
  if 0 ≥ s.connectSSL then { s with point := .sslFree } else { s with point := c.used }

def resume (c : Client) (s : State) (r : ℤ) : State :=
  match s.point with
  | .connect =>
    let s : State := { s with connectSSL := r }
    if s.connectSSL ≤ 0 then { s with point := .getError } else { s with point := .shouldRetry }
  | .getError => whileTest { s with err := r, retry := 200 }
  | .sleep => { s with point := .reconnect }
  | .reconnect => { s with connectSSL := r, point := .regetError }
  | .regetError => whileTest { s with err := r }
  | .stateString => { s with point := .shouldRetry }
  | .shouldRetry => if r ≠ 0 then { s with point := .getFd } else behindLoop c s
  | .getFd => { s with connectSSL := r, point := .select }
  | .select => { s with point := .connect }
  | .returnSsl => { s with point := .returned }
  | .write => { s with point := .read }
  | .read => if r ≤ 0 then { s with point := .reread } else { s with point := .rewrite }
  | .reread => { s with point := .rewrite }
  | .rewrite => { s with point := .lastRead }
  | .lastRead => { s with point := .sslFree }
  | .sslFree => { s with point := .ctxFree }
  | .ctxFree => { s with point := .close }
  | .close => { s with point := .ended }
  | .returned | .ended => s

def step (c : Client) (s : State) (e : Event) : Option State :=
  if call s = some e.1 then some (resume c s e.2) else none

def run (c : Client) (es : List Event) : Option State := after (step c) start es

section Steps

variable {c : Client} {s t : State} {e : Event} {r : ℤ}

theorem step_eq_some (h : step c s e = some t) : call s = some e.1 ∧ resume c s e.2 = t := by
  unfold step at h
  split at h
  · rename_i hcall
    exact ⟨hcall, Option.some.inj h⟩
  · cases h

theorem behindWhile_cases (s : State) :
    (s.connectSSL ≤ 0 ∧ behindWhile s = { s with point := .stateString }) ∨
      (0 < s.connectSSL ∧ behindWhile s = { s with point := .shouldRetry }) := by
  unfold behindWhile
  by_cases hle : s.connectSSL ≤ 0
  · rw [if_pos hle]
    exact Or.inl ⟨hle, rfl⟩
  · rw [if_neg hle]
    exact Or.inr ⟨Int.not_le.mp hle, rfl⟩

/-- The inner loop goes on for a retry, or is left for the test of the result. -/
theorem whileTest_cases (s : State) :
    (s.retry ≠ 0 ∧ whileTest s = { s with retry := s.retry - 1, point := .sleep }) ∨
      (∃ n, s.connectSSL ≤ 0 ∧ whileTest s = { s with retry := n, point := .stateString }) ∨
      (∃ n, 0 < s.connectSSL ∧ whileTest s = { s with retry := n, point := .shouldRetry }) := by
  unfold whileTest
  by_cases hwants : s.err = sslErrorWantRead ∨ s.err = sslErrorWantWrite
  · rw [if_pos hwants]
    by_cases hretry : s.retry ≠ 0
    · rw [if_pos hretry]
      exact Or.inl ⟨hretry, rfl⟩
    · rw [if_neg hretry]
      have hbehind := behindWhile_cases { s with retry := s.retry - 1 }
      exact Or.inr (hbehind.imp (fun h => ⟨s.retry - 1, h⟩) fun h => ⟨s.retry - 1, h⟩)
  · rw [if_neg hwants]
    have hbehind := behindWhile_cases s
    exact Or.inr (hbehind.imp (fun h => ⟨s.retry, h⟩) fun h => ⟨s.retry, h⟩)

inductive Behind : Point → Call → Point → Prop where
  | returns : Behind .returnSsl .returnSsl .returned
  | writes : Behind .write .sslWrite .read
  | reads : Behind .read .sslRead .rewrite
  | fails : Behind .read .sslRead .reread
  | rereads : Behind .reread .sslRead .rewrite
  | rewrites : Behind .rewrite .sslWrite .lastRead
  | lastReads : Behind .lastRead .sslRead .sslFree
  | freesSsl : Behind .sslFree .sslFree .ctxFree
  | freesCtx : Behind .ctxFree .sslCtxFree .close
  | closes : Behind .close .close .ended

inductive Moves (c : Client) (s : State) : Event → State → Prop where
  | connects (r : ℤ) (hat : s.point = .connect) (hr : 0 < r) :
      Moves c s (.sslConnect, r) { s with connectSSL := r, point := .shouldRetry }
  | fails (r : ℤ) (hat : s.point = .connect) (hr : r ≤ 0) :
      Moves c s (.sslConnect, r) { s with connectSSL := r, point := .getError }
  | retries (r n : ℤ) (hn : n ≠ 0)
      (hat : s.point = .getError ∧ n = 200 ∨ s.point = .regetError ∧ n = s.retry) :
      Moves c s (.sslGetError s.connectSSL, r)
        { s with err := r, retry := n - 1, point := .sleep }
  | sleeps (r : ℤ) (hat : s.point = .sleep) :
      Moves c s (.usleep 50, r) { s with point := .reconnect }
  | reconnects (r : ℤ) (hat : s.point = .reconnect) :
      Moves c s (.sslConnect, r) { s with connectSSL := r, point := .regetError }
  | givesUp (r n : ℤ) (hat : s.point = .getError ∨ s.point = .regetError)
      (hle : s.connectSSL ≤ 0) :
      Moves c s (.sslGetError s.connectSSL, r)
        { s with err := r, retry := n, point := .stateString }
  | leaves (r n : ℤ) (hat : s.point = .getError ∨ s.point = .regetError)
      (hpos : 0 < s.connectSSL) :
      Moves c s (.sslGetError s.connectSSL, r)
        { s with err := r, retry := n, point := .shouldRetry }
  | prints (r : ℤ) (hat : s.point = .stateString) :
      Moves c s (.sslStateStringLong, r) { s with point := .shouldRetry }
  | waits (r : ℤ) (hat : s.point = .shouldRetry) :
      Moves c s (.bioSockShouldRetry s.connectSSL, r) { s with point := .getFd }
  | gets (fd : ℤ) (hat : s.point = .getFd) :
      Moves c s (.sslGetFd, fd) { s with connectSSL := fd, point := .select }
  | selects (r : ℤ) (hat : s.point = .select) :
      Moves c s (.select (s.connectSSL + 1), r) { s with point := .connect }
  | loses (r : ℤ) (hat : s.point = .shouldRetry) (hle : s.connectSSL ≤ 0) :
      Moves c s (.bioSockShouldRetry s.connectSSL, r) { s with point := .sslFree }
  | keeps (r : ℤ) (hat : s.point = .shouldRetry) (hpos : 0 < s.connectSSL) :
      Moves c s (.bioSockShouldRetry s.connectSSL, r) { s with point := c.used }
  | behind (a : Call) (r : ℤ) (p : Point) (hbehind : Behind s.point a p) :
      Moves c s (a, r) { s with point := p }

theorem moves_tested {n : ℤ}
    (hat : s.point = .getError ∧ n = 200 ∨ s.point = .regetError ∧ n = s.retry) :
    Moves c s (.sslGetError s.connectSSL, r) (whileTest { s with err := r, retry := n }) := by
  have hpoint : s.point = .getError ∨ s.point = .regetError := hat.imp And.left And.left
  rcases whileTest_cases { s with err := r, retry := n } with
    ⟨hretry, heq⟩ | ⟨k, hle, heq⟩ | ⟨k, hpos, heq⟩
  · rw [heq]
    exact .retries r n hretry hat
  · rw [heq]
    exact .givesUp r k hpoint hle
  · rw [heq]
    exact .leaves r k hpoint hpos

theorem moves_asked (hat : s.point = .shouldRetry) :
    Moves c s (.bioSockShouldRetry s.connectSSL, r)
      (if r ≠ 0 then { s with point := .getFd } else behindLoop c s) := by
  by_cases hr : r ≠ 0
  · rw [if_pos hr]
    exact .waits r hat
  · rw [if_neg hr, behindLoop]
    by_cases hle : 0 ≥ s.connectSSL
    · rw [if_pos hle]
      exact .loses r hat hle
    · rw [if_neg hle]
      exact .keeps r hat (Int.not_le.mp hle)

theorem moves_connected (hat : s.point = .connect) :
    Moves c s (.sslConnect, r) (if r ≤ 0 then { s with connectSSL := r, point := .getError }
      else { s with connectSSL := r, point := .shouldRetry }) := by
  by_cases hle : r ≤ 0
  · rw [if_pos hle]
    exact .fails r hat hle
  · rw [if_neg hle]
    exact .connects r hat (Int.not_le.mp hle)

theorem moves_read (hat : s.point = .read) :
    Moves c s (.sslRead, r)
      (if r ≤ 0 then { s with point := .reread } else { s with point := .rewrite }) := by
  by_cases hle : r ≤ 0
  · rw [if_pos hle]
    exact .behind _ r _ (hat ▸ .fails)
  · rw [if_neg hle]
    exact .behind _ r _ (hat ▸ .reads)

theorem moves_of_call {a : Call} (h : call s = some a) : Moves c s (a, r) (resume c s r) := by
  cases hat : s.point <;> simp only [call, hat, Option.some.injEq, reduceCtorEq] at h <;>
    subst h <;> simp only [resume, hat]
  case connect => exact moves_connected hat
  case getError => exact moves_tested (Or.inl ⟨hat, rfl⟩)
  case sleep => exact .sleeps r hat
  case reconnect => exact .reconnects r hat
  case regetError => exact moves_tested (Or.inr ⟨hat, rfl⟩)
  case stateString => exact .prints r hat
  case shouldRetry => exact moves_asked hat
  case getFd => exact .gets r hat
  case select => exact .selects r hat
  case returnSsl => exact .behind _ r _ (hat ▸ .returns)
  case write => exact .behind _ r _ (hat ▸ .writes)
  case read => exact moves_read hat
  case reread => exact .behind _ r _ (hat ▸ .rereads)
  case rewrite => exact .behind _ r _ (hat ▸ .rewrites)
  case lastRead => exact .behind _ r _ (hat ▸ .lastReads)
  case sslFree => exact .behind _ r _ (hat ▸ .freesSsl)
  case ctxFree => exact .behind _ r _ (hat ▸ .freesCtx)
  case close => exact .behind _ r _ (hat ▸ .closes)

theorem moves_of_step (h : step c s e = some t) : Moves c s e t := by
  obtain ⟨hcall, rfl⟩ := step_eq_some h
  exact moves_of_call hcall

end Steps

end ConnectLoop
