import MakeDownFile.StepRelations
import MakeDownFile.TraceRuns
import Mathlib.Data.Finset.Basic

/-! # The domain-socket server

epoll_listen polls the descriptor it is given together with the connections it accepts on
it. It does so rightly for a listening socket, but main gives it the epoll instance that
epoll_init has made for the socket. -/
namespace DomainSocketServer

open StepRelations
open TraceRuns

inductive Kind where
  | socket
  | listening
  | connection
  | epoll
  deriving DecidableEq, Repr

/-- System calls with their results; `none` and `false` are failures. -/
inductive SysCall where
  | socket (r : Option ℕ)
  | bind (fd : ℕ) (ok : Bool)
  | listen (fd : ℕ) (ok : Bool)
  | epollCreate (r : Option ℕ)
  | epollAdd (epfd fd : ℕ) (ok : Bool)
  | epollDel (epfd fd : ℕ)
  | epollWait (epfd : ℕ) (events : List ℕ)
  | accept (fd : ℕ) (r : Option ℕ)
  | recv (fd : ℕ) (len : ℤ)
  | close (fd : ℕ)
  deriving DecidableEq, Repr

structure Kernel where
  kind : ℕ → Option Kind
  interest : ℕ → Finset ℕ

namespace Kernel

variable (k : Kernel)

def setKind (fd : ℕ) (kind : Option Kind) : Kernel :=
  { k with kind := Function.update k.kind fd kind }

def setInterest (epfd : ℕ) (fds : Finset ℕ) : Kernel :=
  { k with interest := Function.update k.interest epfd fds }

/-- The effect of a call. Closing a descriptor also takes it out of every epoll instance. -/
def record : SysCall → Kernel
  | .socket (some fd) => k.setKind fd (some .socket)
  | .listen fd true => k.setKind fd (some .listening)
  | .epollCreate (some epfd) => (k.setKind epfd (some .epoll)).setInterest epfd ∅
  | .epollAdd epfd fd true => k.setInterest epfd (insert fd (k.interest epfd))
  | .epollDel epfd fd => k.setInterest epfd ((k.interest epfd).erase fd)
  | .accept _ (some fd) => k.setKind fd (some .connection)
  | .close fd => ⟨Function.update k.kind fd none, fun epfd => (k.interest epfd).erase fd⟩
  | _ => k

end Kernel

def Kernel.after (t : List SysCall) : Kernel := t.foldl Kernel.record ⟨fun _ => none, fun _ => ∅⟩

theorem after_append (t u : List SysCall) :
    Kernel.after (t ++ u) = u.foldl Kernel.record (Kernel.after t) := by
  rw [Kernel.after, List.foldl_append]
  rfl

structure SetupCalls where
  socket : Option ℕ
  bind : Bool
  listen : Bool
  initCreate : Option ℕ
  initAdd : Bool
  listenCreate : Option ℕ
  listenAdd : Bool
  deriving DecidableEq, Repr

def listenDomainSocket (o : SetupCalls) : Option ℕ × List SysCall :=
  match o.socket with
  | none => (none, [.socket none])
  | some fd =>
    if ¬ o.bind then (none, [.socket (some fd), .bind fd false, .close fd])
    else if ¬ o.listen then
      (none, [.socket (some fd), .bind fd true, .listen fd false, .close fd])
    else (some fd, [.socket (some fd), .bind fd true, .listen fd true])

def pollOne (create : Option ℕ) (add : Bool) (fd : ℕ) : Option ℕ × List SysCall :=
  match create with
  | none => (none, [.epollCreate none])
  | some epfd =>
    (if add then some epfd else none, [.epollCreate (some epfd), .epollAdd epfd fd add])

def epollInit (o : SetupCalls) (fd : ℕ) : Option ℕ × List SysCall :=
  pollOne o.initCreate o.initAdd fd

/-- The server in its loop, with the events of the last epoll_wait still to be handled, or
after its main has returned. -/
inductive Server where
  | serving (fd epfd : ℕ) (todo : List ℕ) (t : List SysCall)
  | ended (ret : ℤ) (t : List SysCall)

def Server.trace : Server → List SysCall
  | .serving _ _ _ t => t
  | .ended _ t => t

def epollListen (o : SetupCalls) (fd : ℕ) (t : List SysCall) : Server :=
  match pollOne o.listenCreate o.listenAdd fd with
  | (none, calls) => .ended 0 (t ++ calls)
  | (some epfd, calls) => .serving fd epfd [] (t ++ calls)

/-- The result of epoll_listen is ignored. -/
def main (o : SetupCalls) : Server :=
  match listenDomainSocket o with
  | (none, calls) => .ended (-1) calls
  | (some fd, calls) =>
    match epollInit o fd with
    | (none, calls') => .ended (-1) (calls ++ calls')
    | (some epfd, calls') => epollListen o epfd (calls ++ calls')

/-- One turn of the loop, or the handling of one event. epoll_wait reports up to 20
registered descriptors, each once. accept succeeds on listening sockets only, with any
descriptor that is free. -/
inductive Step : Server → Server → Prop where
  | wait {fd epfd batch t} (hreg : ∀ x ∈ batch, x ∈ (Kernel.after t).interest epfd)
      (hnodup : batch.Nodup) (hlen : batch.length ≤ 20) :
      Step (.serving fd epfd [] t) (.serving fd epfd batch (t ++ [.epollWait epfd batch]))
  | accept {fd epfd rest n t} (hkind : (Kernel.after t).kind fd = some .listening)
      (hfree : (Kernel.after t).kind n = none) :
      Step (.serving fd epfd (fd :: rest) t)
        (.serving fd epfd rest (t ++ [.accept fd (some n), .epollAdd epfd n true]))
  | acceptFails {fd epfd rest t} :
      Step (.serving fd epfd (fd :: rest) t) (.ended 0 (t ++ [.accept fd none]))
  | addFails {fd epfd rest n t} (hkind : (Kernel.after t).kind fd = some .listening)
      (hfree : (Kernel.after t).kind n = none) :
      Step (.serving fd epfd (fd :: rest) t)
        (.ended 0 (t ++ [.accept fd (some n), .epollAdd epfd n false]))
  | use {fd epfd x rest len t} (hne : x ≠ fd) :
      Step (.serving fd epfd (x :: rest) t)
        (.serving fd epfd rest (t ++ [.recv x len, .epollDel epfd x, .close x]))

/-- What the server should do, call by call. At every return to epoll_wait the polled
instance holds the listener and the open connections; a connection is deregistered while it
is open and registered, and closed while it is open and no longer registered. -/
def ServeOk (listener : ℕ) (hist : List SysCall) : SysCall → Prop
  | .accept fd _ => fd = listener
  | .epollWait epfd _ => ∀ x, x ∈ (Kernel.after hist).interest epfd ↔
      x = listener ∨ (Kernel.after hist).kind x = some .connection
  | .epollDel epfd x => (Kernel.after hist).kind x = some .connection ∧
      x ∈ (Kernel.after hist).interest epfd
  | .close x => (Kernel.after hist).kind x ≠ none ∧
      ((Kernel.after hist).kind x = some .connection →
        ∀ epfd, x ∉ (Kernel.after hist).interest epfd)
  | _ => True

structure LoopInv (fd epfd : ℕ) (todo : List ℕ) (t : List SysCall) : Prop where
  listening : (Kernel.after t).kind fd = some .listening
  poller : (Kernel.after t).kind epfd = some .epoll
  registered : ∀ x, x ∈ (Kernel.after t).interest epfd ↔
    x = fd ∨ (Kernel.after t).kind x = some .connection
  elsewhere : ∀ ep x, ep ≠ epfd → x ∈ (Kernel.after t).interest ep →
    (Kernel.after t).kind x ≠ none ∧ (Kernel.after t).kind x ≠ some .connection
  todo_nodup : todo.Nodup
  todo_reg : ∀ x ∈ todo, x ∈ (Kernel.after t).interest epfd
  safe : Always (ServeOk fd) [] t

section Loop

variable {fd epfd x n : ℕ} {rest : List ℕ} {t : List SysCall}

theorem loop_inv_wait {batch : List ℕ} (h : LoopInv fd epfd [] t)
    (hreg : ∀ x ∈ batch, x ∈ (Kernel.after t).interest epfd) (hnodup : batch.Nodup) :
    LoopInv fd epfd batch (t ++ [.epollWait epfd batch]) := by
  have hk : Kernel.after (t ++ [.epollWait epfd batch]) = Kernel.after t := by
    rw [after_append]
    rfl
  refine ⟨hk ▸ h.listening, hk ▸ h.poller, hk ▸ h.registered, hk ▸ h.elsewhere, hnodup,
    hk ▸ hreg, ?_⟩
  exact always_append.mpr ⟨h.safe, h.registered, trivial⟩

theorem after_accept (fd epfd n : ℕ) (t : List SysCall) :
    (Kernel.after (t ++ [.accept fd (some n), .epollAdd epfd n true])).kind =
        Function.update (Kernel.after t).kind n (some .connection) ∧
    (Kernel.after (t ++ [.accept fd (some n), .epollAdd epfd n true])).interest =
      Function.update (Kernel.after t).interest epfd
        (insert n ((Kernel.after t).interest epfd)) := by
  rw [after_append]
  exact ⟨rfl, rfl⟩

theorem after_del {len : ℤ} : Kernel.after (t ++ [.recv x len, .epollDel epfd x]) =
    (Kernel.after t).setInterest epfd (((Kernel.after t).interest epfd).erase x) := by
  rw [after_append]
  rfl

theorem after_use (epfd x : ℕ) (len : ℤ) (t : List SysCall) :
    (Kernel.after (t ++ [.recv x len, .epollDel epfd x, .close x])).kind =
      Function.update (Kernel.after t).kind x none ∧
    ∀ ep, (Kernel.after (t ++ [.recv x len, .epollDel epfd x, .close x])).interest ep =
      ((Kernel.after t).interest ep).erase x := by
  rw [after_append]
  refine ⟨rfl, fun ep => ?_⟩
  by_cases hep : ep = epfd
  · subst hep
    simp [Kernel.record, Kernel.setInterest]
  · simp [Kernel.record, Kernel.setInterest, hep]

/-- A connection gets a descriptor that is not among the events still to be handled. -/
theorem loop_inv_accept (h : LoopInv fd epfd (fd :: rest) t)
    (hfree : (Kernel.after t).kind n = none) :
    LoopInv fd epfd rest (t ++ [.accept fd (some n), .epollAdd epfd n true]) := by
  obtain ⟨hkind, hint⟩ := after_accept fd epfd n t
  have hused : ∀ y, (Kernel.after t).kind y ≠ none → y ≠ n := by
    rintro y hy rfl
    exact hy hfree
  have hold : ∀ y, (Kernel.after t).kind y ≠ none →
      (Kernel.after (t ++ [.accept fd (some n), .epollAdd epfd n true])).kind y =
        (Kernel.after t).kind y := by
    intro y hy
    rw [hkind, Function.update_of_ne (hused y hy)]
  constructor
  · rw [hold fd (by simp [h.listening]), h.listening]
  · rw [hold epfd (by simp [h.poller]), h.poller]
  · intro y
    rw [hkind, hint, Function.update_self, Finset.mem_insert, h.registered y]
    by_cases hy : y = n
    · simp [hy]
    · simp [hy]
  · intro ep y hne hy
    rw [hint, Function.update_of_ne hne] at hy
    obtain ⟨hopen, hno⟩ := h.elsewhere ep y hne hy
    rw [hold y hopen]
    exact ⟨hopen, hno⟩
  · exact (List.nodup_cons.mp h.todo_nodup).2
  · intro y hy
    rw [hint, Function.update_self]
    exact Finset.mem_insert_of_mem (h.todo_reg y (List.mem_cons_of_mem _ hy))
  · exact always_append.mpr ⟨h.safe, rfl, trivial, trivial⟩

theorem loop_inv_use {len : ℤ} (h : LoopInv fd epfd (x :: rest) t) (hne : x ≠ fd) :
    LoopInv fd epfd rest (t ++ [.recv x len, .epollDel epfd x, .close x]) := by
  obtain ⟨hnot, hrest⟩ := List.nodup_cons.mp h.todo_nodup
  obtain ⟨hkind, hint⟩ := after_use epfd x len t
  have hx := h.todo_reg x List.mem_cons_self
  have hconn : (Kernel.after t).kind x = some .connection :=
    ((h.registered x).mp hx).resolve_left hne
  have hep : epfd ≠ x := by
    rintro rfl
    have hpoller := h.poller
    rw [hconn] at hpoller
    cases hpoller
  constructor
  · rw [hkind, Function.update_of_ne hne.symm, h.listening]
  · rw [hkind, Function.update_of_ne hep, h.poller]
  · intro y
    rw [hkind, hint, Finset.mem_erase, h.registered y]
    by_cases hy : y = x
    · simp [hy, hne]
    · simp [hy]
  · intro ep y hep' hy
    rw [hint, Finset.mem_erase] at hy
    rw [hkind, Function.update_of_ne hy.1]
    exact h.elsewhere ep y hep' hy.2
  · exact hrest
  · intro y hy
    have hyx : y ≠ x := fun he => hnot (he ▸ hy)
    rw [hint, Finset.mem_erase]
    exact ⟨hyx, h.todo_reg y (List.mem_cons_of_mem _ hy)⟩
  · refine always_append.mpr ⟨h.safe, trivial, ⟨?_, ?_⟩, ⟨?_, fun _ ep hreg => ?_⟩, trivial⟩
    · rw [List.nil_append, after_append]
      exact hconn
    · rw [List.nil_append, after_append]
      exact hx
    · rw [List.nil_append, List.append_assoc, List.singleton_append, after_del]
      exact fun hnone => by rw [Kernel.setInterest, hconn] at hnone; cases hnone
    · rw [List.nil_append, List.append_assoc, List.singleton_append, after_del] at hreg
      by_cases hpoll : ep = epfd
      · subst hpoll
        simp [Kernel.setInterest] at hreg
      · simp only [Kernel.setInterest, Function.update_of_ne hpoll] at hreg
        exact (h.elsewhere ep x hpoll hreg).2 hconn

def Serves (listener : ℕ) : Server → Prop
  | .serving fd epfd todo t => fd = listener ∧ LoopInv fd epfd todo t
  | .ended _ t => Always (ServeOk listener) [] t

theorem serves_step {listener : ℕ} {s u : Server} (h : Serves listener s) (hs : Step s u) :
    Serves listener u := by
  cases hs with
  | wait hreg hnodup hlen => exact ⟨h.1, loop_inv_wait h.2 hreg hnodup⟩
  | accept hkind hfree => exact ⟨h.1, loop_inv_accept h.2 hfree⟩
  | acceptFails =>
    obtain ⟨rfl, hinv⟩ := h
    exact always_append.mpr ⟨hinv.safe, rfl, trivial⟩
  | addFails hkind hfree =>
    obtain ⟨rfl, hinv⟩ := h
    exact always_append.mpr ⟨hinv.safe, rfl, trivial, trivial⟩
  | use hne => exact ⟨h.1, loop_inv_use h.2 hne⟩

theorem Serves.safe {listener : ℕ} {s : Server} (h : Serves listener s) :
    Always (ServeOk listener) [] s.trace := by
  cases s with
  | serving fd epfd todo t =>
    obtain ⟨rfl, hinv⟩ := h
    exact hinv.safe
  | ended ret t => exact h

/-- Given a listening socket, epoll_listen does all that it should: in every run it accepts
on the socket only, polls the socket and the open connections at every epoll_wait, and
deregisters and closes each connection once. -/
theorem epoll_listen_serves {o : SetupCalls} {s : Server}
    (hfd : (Kernel.after t).kind fd = some .listening)
    (hnew : ∀ ep, o.listenCreate = some ep → (Kernel.after t).kind ep = none)
    (hno : ∀ y, (Kernel.after t).kind y ≠ some .connection)
    (hopen : ∀ ep y, y ∈ (Kernel.after t).interest ep → (Kernel.after t).kind y ≠ none)
    (ht : Always (ServeOk fd) [] t) (hrun : Run Step n (epollListen o fd t) s) :
    Always (ServeOk fd) [] s.trace := by
  have hkeep : ∀ u v, Serves fd u → Step u v → Serves fd v := fun _ _ => serves_step
  refine Serves.safe (run_invariant hkeep ?_ hrun)
  unfold epollListen pollOne
  cases hcreate : o.listenCreate with
  | none => exact always_append.mpr ⟨ht, trivial, trivial⟩
  | some ep =>
    have hfree := hnew ep hcreate
    have hne : fd ≠ ep := by
      rintro rfl
      rw [hfd] at hfree
      cases hfree
    cases hadd : o.listenAdd with
    | false => exact always_append.mpr ⟨ht, trivial, trivial, trivial⟩
    | true =>
      have hkind : (Kernel.after (t ++ [.epollCreate (some ep), .epollAdd ep fd true])).kind =
          Function.update (Kernel.after t).kind ep (some .epoll) := by
        rw [after_append]
        rfl
      have hint : ∀ e, (Kernel.after
          (t ++ [.epollCreate (some ep), .epollAdd ep fd true])).interest e =
            if e = ep then {fd} else (Kernel.after t).interest e := by
        intro e
        rw [after_append]
        by_cases he : e = ep <;> simp [Kernel.record, Kernel.setInterest, Kernel.setKind, he]
      refine ⟨rfl, ?_, ?_, fun y => ?_, fun e y he hy => ?_, List.nodup_nil, by simp, ?_⟩
      · rw [hkind, Function.update_of_ne hne, hfd]
      · rw [hkind, Function.update_self]
      · rw [hkind, hint, if_pos rfl, Finset.mem_singleton]
        by_cases hy : y = ep
        · simp [hy]
        · simp [Function.update_of_ne hy, hno y]
      · rw [hint, if_neg he] at hy
        have hyep : y ≠ ep := fun h => hopen e y hy (h ▸ hfree)
        rw [hkind, Function.update_of_ne hyep]
        exact ⟨hopen e y hy, hno y⟩
      · exact always_append.mpr ⟨ht, trivial, trivial, trivial⟩

end Loop

section Main

variable {l e₁ e₂ : ℕ}

def setupTrace (l e₁ e₂ : ℕ) : List SysCall :=
  [.socket (some l), .bind l true, .listen l true, .epollCreate (some e₁), .epollAdd e₁ l true,
    .epollCreate (some e₂), .epollAdd e₂ e₁ true]

theorem main_serves_epoll (l e₁ e₂ : ℕ) :
    main ⟨some l, true, true, some e₁, true, some e₂, true⟩ =
      .serving e₁ e₂ [] (setupTrace l e₁ e₂) := rfl

theorem after_setup (he : e₁ ≠ e₂) :
    (Kernel.after (setupTrace l e₁ e₂)).interest e₂ = {e₁} ∧
      (Kernel.after (setupTrace l e₁ e₂)).kind e₁ = some .epoll ∧
      ∀ x, (Kernel.after (setupTrace l e₁ e₂)).kind x ≠ some .connection := by
  refine ⟨?_, ?_, fun x => ?_⟩
  · simp [Kernel.after, setupTrace, Kernel.record, Kernel.setInterest, Kernel.setKind]
  · simp [Kernel.after, setupTrace, Kernel.record, Kernel.setInterest, Kernel.setKind, he]
  · simp only [Kernel.after, setupTrace, List.foldl_cons, List.foldl_nil, Kernel.record,
      Kernel.setInterest, Kernel.setKind, Function.update_apply]
    repeat' split
    all_goals simp

theorem step_grows {s u : Server} (h : Step s u) : s.trace <+: u.trace := by
  cases h <;> exact List.prefix_append _ _

/-- The server of main: it polls an epoll instance, on which no accept succeeds. -/
inductive Stalled (e₁ e₂ : ℕ) (t₀ : List SysCall) : Server → Prop where
  | serving {todo t} (hint : (Kernel.after t).interest e₂ = {e₁})
      (hkind : (Kernel.after t).kind e₁ = some .epoll) (htodo : ∀ x ∈ todo, x = e₁)
      (hcalls : ∀ fd r, SysCall.accept fd r ∉ t) (hgrows : t₀ <+: t) :
      Stalled e₁ e₂ t₀ (.serving e₁ e₂ todo t)
  | ended {ret t} (hcalls : ∀ fd r, SysCall.accept fd r ∈ t → fd = e₁ ∧ r = none)
      (hgrows : t₀ <+: t) : Stalled e₁ e₂ t₀ (.ended ret t)

theorem stalled_step {t₀ : List SysCall} {s u : Server} (h : Stalled e₁ e₂ t₀ s)
    (hs : Step s u) : Stalled e₁ e₂ t₀ u := by
  have hgrow := step_grows hs
  cases h with
  | ended => cases hs
  | serving hint hkind htodo hcalls hgrows =>
    cases hs with
    | wait hreg hnodup hlen =>
      refine .serving ?_ ?_ ?_ (by simpa using hcalls) (hgrows.trans hgrow)
      · rw [after_append]
        exact hint
      · rw [after_append]
        exact hkind
      · intro x hx
        have := hreg x hx
        rwa [hint, Finset.mem_singleton] at this
    | accept hlisten hfree =>
      rw [hkind] at hlisten
      cases hlisten
    | acceptFails =>
      refine .ended ?_ (hgrows.trans hgrow)
      intro fd r hm
      rcases List.mem_append.mp hm with hm | hm
      · exact absurd hm (hcalls fd r)
      · cases List.mem_singleton.mp hm
        exact ⟨rfl, rfl⟩
    | addFails hlisten hfree =>
      rw [hkind] at hlisten
      cases hlisten
    | use hne => exact absurd (htodo _ List.mem_cons_self) hne

/-- Every run of main in which the setup succeeds is wrong from its first epoll_wait on: the
polled instance never holds the listening socket, and accept is never applied to it. -/
theorem main_never_serves (hl : l ≠ e₁) (he : e₁ ≠ e₂) {n : ℕ} {s : Server}
    (hrun : Run Step (n + 1) (main ⟨some l, true, true, some e₁, true, some e₂, true⟩) s) :
    ¬ Always (ServeOk l) [] s.trace ∧ ∀ fd r, SysCall.accept fd r ∈ s.trace → fd ≠ l := by
  obtain ⟨hint, hkind, _⟩ := after_setup (l := l) he
  rw [main_serves_epoll] at hrun
  obtain ⟨v, hv, hrest⟩ := run_head hrun
  -- the first turn of the loop can only be an epoll_wait
  cases hv with
  | wait hreg hnodup hlen =>
    rename_i batch
    have hafter : Kernel.after (setupTrace l e₁ e₂ ++ [.epollWait e₂ batch]) =
        Kernel.after (setupTrace l e₁ e₂) := by
      rw [after_append]
      rfl
    have hkeep : ∀ u v, Stalled e₁ e₂ (setupTrace l e₁ e₂ ++ [.epollWait e₂ batch]) u → Step u v →
        Stalled e₁ e₂ (setupTrace l e₁ e₂ ++ [.epollWait e₂ batch]) v := fun _ _ => stalled_step
    have hstart : Stalled e₁ e₂ (setupTrace l e₁ e₂ ++ [.epollWait e₂ batch])
        (.serving e₁ e₂ batch (setupTrace l e₁ e₂ ++ [.epollWait e₂ batch])) := by
      refine .serving (by rw [hafter, hint]) (by rw [hafter, hkind]) (fun x hx => ?_)
        (by simp [setupTrace]) List.prefix_rfl
      have := hreg x hx
      rwa [hint, Finset.mem_singleton] at this
    have hstalled := run_invariant hkeep hstart hrest
    have hwrong : ∀ t, setupTrace l e₁ e₂ ++ [.epollWait e₂ batch] <+: t →
        ¬ Always (ServeOk l) [] t := by
      rintro _ ⟨rest, rfl⟩ hall
      obtain ⟨_, hwait, _⟩ := always_append.mp (always_append.mp hall).1
      have hl' := (hwait l).mpr (Or.inl rfl)
      rw [List.nil_append, hint, Finset.mem_singleton] at hl'
      exact hl hl'
    cases hstalled with
    | serving _ _ _ hcalls hgrows => exact ⟨hwrong _ hgrows, fun fd r hm => absurd hm (hcalls fd r)⟩
    | ended hcalls hgrows =>
      refine ⟨hwrong _ hgrows, fun fd r hm => ?_⟩
      rw [(hcalls fd r hm).1]
      exact hl.symm

/-- The first epoll_wait times out. -/
theorem idle_turn : Step (main ⟨some 3, true, true, some 4, true, some 5, true⟩)
    (.serving 4 5 [] (setupTrace 3 4 5 ++ [.epollWait 5 []])) :=
  .wait (by simp) List.nodup_nil (by simp)

theorem main_never_serves_sample :
    (3 ≠ 4 ∧ 4 ≠ 5 ∧ Run Step 1 (main ⟨some 3, true, true, some 4, true, some 5, true⟩)
      (.serving 4 5 [] (setupTrace 3 4 5 ++ [.epollWait 5 []]))) ∧
    ¬ Always (ServeOk 3) [] (setupTrace 3 4 5 ++ [.epollWait 5 []]) :=
  ⟨⟨by decide, by decide, .tail (.refl _) idle_turn⟩,
    (main_never_serves (by decide) (by decide) (.tail (.refl _) idle_turn)).1⟩

/-- A client connects: the epoll instance of epoll_init becomes readable, and accept is
applied to it. -/
theorem client_ends_server : ∃ t, Run Step 2
      (main ⟨some 3, true, true, some 4, true, some 5, true⟩) (.ended 0 t) ∧
    SysCall.accept 4 none ∈ t ∧ ¬ Always (ServeOk 3) [] t := by
  have hwait : Step (main ⟨some 3, true, true, some 4, true, some 5, true⟩)
      (.serving 4 5 [4] (setupTrace 3 4 5 ++ [.epollWait 5 [4]])) := by
    have hint : (Kernel.after (setupTrace 3 4 5)).interest 5 = {4} := (after_setup (by decide)).1
    refine .wait (fun x hx => ?_) (List.nodup_singleton 4) (by simp)
    rw [List.mem_singleton.mp hx]
    exact hint ▸ Finset.mem_singleton_self 4
  refine ⟨_, .tail (.tail (.refl _) hwait) .acceptFails, by simp, fun hall => ?_⟩
  have haccept : (4 : ℕ) = 3 := (always_append.mp hall).2.1
  exact absurd haccept (by decide)

end Main

end DomainSocketServer
