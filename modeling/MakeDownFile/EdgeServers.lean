import MakeDownFile.EpollSockets

/-! # The edge-triggered servers

The other two epoll examples print what clients send, and register connections for edges. One
reads once for an edge, the other one reads until a read fails or the client has closed. The
sockets are blocking ones. -/
namespace EdgeServers

open EpollSockets
open StepRelations

structure Once where
  world : World
  todo : List Source
  running : Bool

namespace Once

def start : Once := ⟨World.start, [], true⟩

def goOn (s : Once) (w : World) (todo : List Source) : Once := { s with world := w, todo := todo }

/-- epoll_wait looks again whether there still is something to do. An accept that fails is
skipped. -/
inductive Works : Once → Once → Prop where
  | wait {s batch} (hrun : s.running = true) (hidle : s.todo = []) (hne : batch ≠ [])
      (hnodup : batch.Nodup) (hready : ∀ x ∈ batch, s.world.Ready x ∧ s.world.Edge x)
      (hlen : batch.length ≤ 10) :
      Works s (s.goOn (s.world.report batch) batch)
  | accept {s rest c cs} (hrun : s.running = true) (htodo : s.todo = .listener :: rest)
      (hback : s.world.backlog = c :: cs) : Works s (s.goOn (s.world.accept c cs) rest)
  | skip {s rest} (hrun : s.running = true) (htodo : s.todo = .listener :: rest) :
      Works s (s.goOn s.world rest)
  | print {s c rest} (hrun : s.running = true) (htodo : s.todo = .conn c :: rest)
      (hne : (s.world.socket c).inbound ≠ []) :
      Works s (s.goOn (s.world.read c 1024) rest)
  | close {s c rest} (hrun : s.running = true) (htodo : s.todo = .conn c :: rest)
      (hnil : (s.world.socket c).inbound = []) (hended : (s.world.socket c).ended = true) :
      Works s (s.goOn (s.world.close c) rest)

inductive Fails : Once → Once → Prop where
  | wait {s} (hrun : s.running = true) (hidle : s.todo = []) :
      Fails s { s with running := false }
  | add {s rest} (hrun : s.running = true) (htodo : s.todo = .listener :: rest) :
      Fails s { s with running := false }
  | read {s c rest} (hrun : s.running = true) (htodo : s.todo = .conn c :: rest)
      (hreset : (s.world.socket c).reset = true) : Fails s { s with running := false }

inductive Step : Once → Once → Prop where
  | client {s w} (h : Client s.world w) : Step s { s with world := w }
  | works {s t} (h : Works s t) : Step s t
  | fails {s t} (h : Fails s t) : Step s t

/-- Without an edge that is still to be reported or handled, what is left of a connection has
been left by a read: bytes that did not fit, or the end behind the bytes. -/
def Left (s : Once) (c : ℕ) : Prop :=
  (s.world.socket c).edge = false → Source.conn c ∉ s.todo →
    ((s.world.socket c).inbound ≠ [] →
      ∃ chunk, (s.world.socket c).reads.getLast? = some chunk ∧ chunk.length = 1024) ∧
    ((s.world.socket c).ended = true → (s.world.socket c).reads ≠ [])

structure OnceInv (s : Once) : Prop where
  world : WorldInv 1024 s.world
  ready : ∀ x ∈ s.todo, s.world.Ready x
  nodup : s.todo.Nodup
  left : ∀ c ∈ s.world.accepted, Left s c

section Invariant

variable {s t : Once}

theorem once_inv_start : OnceInv start :=
  ⟨world_inv_start, by simp [start], by simp [start], by simp [start, World.start]⟩

theorem once_inv_client {w : World} (h : OnceInv s) (hs : Client s.world w) :
    OnceInv { s with world := w } := by
  refine ⟨world_inv_client h.world hs, fun x hx => client_ready hs (h.ready x hx), h.nodup, ?_⟩
  rcases client_cases hs with rfl | ⟨d, sock, -, -, rfl, -, -, hedge, -⟩
  · exact h.left
  · intro c hc
    by_cases hcd : c = d
    · subst hcd
      intro hno
      simp only [set_socket_self] at hno
      rw [hedge] at hno
      cases hno
    · rw [Left]
      simp only [set_socket_ne hcd]
      exact h.left c hc

theorem left_other {x : Source} {rest : List Source} {w : World} {c : ℕ} (h : Left s c)
    (htodo : s.todo = x :: rest) (hx : x ≠ .conn c) (hsock : w.socket c = s.world.socket c) :
    Left (s.goOn w rest) c := by
  rw [Left, goOn]
  simp only [hsock]
  refine fun hedge hno => h hedge fun hm => ?_
  rw [htodo] at hm
  rcases List.mem_cons.mp hm with he | hm
  · exact hx he.symm
  · exact hno hm

theorem once_inv_works (h : OnceInv s) (hs : Works s t) : OnceInv t := by
  cases hs with
  | wait hrun hidle hne hnodup hready hlen =>
    rename_i batch
    refine ⟨world_inv_report h.world batch, fun x hx => (report_ready batch).mpr (hready x hx).1,
      hnodup, fun c hc => ?_⟩
    obtain ⟨-, -, hacc, -⟩ := report_keeps batch s.world
    intro hedge hno
    have hsock : (s.world.report batch).socket c = s.world.socket c := report_socket hno
    simp only [goOn] at hc hedge ⊢
    rw [hacc] at hc
    rw [hsock] at hedge ⊢
    exact h.left c hc hedge (by rw [hidle]; exact List.not_mem_nil)
  | accept hrun htodo hback =>
    rename_i rest c cs
    obtain ⟨hready, -, hnodup⟩ := rest_of_batch (v := s.world.accept c cs) h.ready h.nodup htodo
      fun y hy hr => by
        cases y with
        | listener => exact absurd rfl hy
        | conn d => exact accept_ready hr
    refine ⟨world_inv_serve (by decide) h.world (.accept hback), hready, hnodup, fun d hd => ?_⟩
    by_cases hdc : d = c
    · subst hdc
      intro hedge hno
      have hidle : ¬ (s.world.socket d).Ready := by
        have : ((s.world.accept d cs).socket d) = (s.world.socket d).register := set_socket_self
        simp only [goOn, this, Socket.register, decide_eq_false_iff_not] at hedge
        exact hedge
      obtain ⟨b, hsock⟩ := accept_keeps s.world d cs d
      simp only [goOn, hsock]
      exact ⟨fun hne => absurd (Or.inl hne) hidle, fun hend => absurd (Or.inr (Or.inl hend)) hidle⟩
    · have hold : d ∈ s.world.accepted := (List.mem_cons.mp hd).resolve_left hdc
      exact left_other (h.left d hold) htodo nofun (set_socket_ne hdc)
  | skip hrun htodo =>
    obtain ⟨hready, -, hnodup⟩ := rest_of_batch h.ready h.nodup htodo fun y hy hr => hr
    exact ⟨h.world, hready, hnodup, fun d hd => left_other (h.left d hd) htodo nofun rfl⟩
  | print hrun htodo hne =>
    rename_i c rest
    have hc := (h.ready (.conn c) (htodo ▸ List.mem_cons_self)).1
    obtain ⟨hready, -, hnodup⟩ := rest_of_batch (v := s.world.read c 1024) h.ready h.nodup htodo
      fun y hy hr => read_ready hy hr
    refine ⟨world_inv_serve (by decide) h.world (.read hc hne), hready, hnodup, fun d hd => ?_⟩
    by_cases hdc : d = c
    · subst hdc
      intro hedge hno
      have hsock : (s.world.read d 1024).socket d = (s.world.socket d).read 1024 := set_socket_self
      simp only [goOn, hsock, Socket.read, List.getLast?_concat]
      refine ⟨fun hmore => ⟨_, rfl, ?_⟩, fun _ => by simp⟩
      rw [ne_eq, List.drop_eq_nil_iff, Nat.not_le] at hmore
      rw [List.length_take]
      omega
    · have hcd : Source.conn c ≠ .conn d := fun he => hdc (Source.conn.inj he).symm
      exact left_other (h.left d hd) htodo hcd (set_socket_ne hdc)
  | close hrun htodo hnil hended =>
    rename_i c rest
    have hc := (h.ready (.conn c) (htodo ▸ List.mem_cons_self)).1
    obtain ⟨hready, -, hnodup⟩ := rest_of_batch (v := s.world.close c) h.ready h.nodup htodo
      fun y hy hr => close_ready hy hr
    refine ⟨world_inv_serve (by decide) h.world (.close hc), hready, hnodup, fun d hd => ?_⟩
    have hacc := (List.nodup_append.mp h.world.distinct).2.1
    obtain ⟨hdc, hold⟩ := hacc.mem_erase_iff.mp hd
    have hcd : Source.conn c ≠ .conn d := fun he => hdc (Source.conn.inj he).symm
    exact left_other (h.left d hold) htodo hcd rfl

theorem once_inv_step (h : OnceInv s) (hs : Step s t) : OnceInv t := by
  cases hs with
  | client hc => exact once_inv_client h hc
  | works hw => exact once_inv_works h hw
  | fails hf => cases hf <;> exact ⟨h.world, h.ready, h.nodup, h.left⟩

theorem once_inv_run {n : ℕ} (h : Run Step n start s) : OnceInv s := by
  have hkeep : ∀ s t, OnceInv s → Step s t → OnceInv t := fun _ _ => once_inv_step
  exact run_invariant hkeep once_inv_start h

end Invariant

section Results

variable {s u : Once} {n m c : ℕ}

/-- When epoll_wait has nothing to report, what a client has sent has been printed, unless the
last read from it filled the buffer; and a client that has closed and is not closed has been
read from together with its closing. -/
theorem left_behind (h : Run Step n start s) (hrun : s.running = true) (hidle : s.todo = [])
    (hblocked : Stuck Works s) (hc : c ∈ s.world.accepted) :
    (s.world.socket c).arrived = (s.world.socket c).taken ++ (s.world.socket c).inbound ∧
      ((s.world.socket c).inbound ≠ [] →
        ∃ chunk, (s.world.socket c).reads.getLast? = some chunk ∧ chunk.length = 1024) ∧
      ((s.world.socket c).ended = true → (s.world.socket c).reads ≠ []) := by
  have hinv := once_inv_run h
  have hno : Source.conn c ∉ s.todo := by
    rw [hidle]
    exact List.not_mem_nil
  have hedge : (s.world.socket c).Ready → (s.world.socket c).edge = false := by
    intro hready
    by_contra hedge
    refine hblocked _ (.wait hrun hidle (List.cons_ne_nil (.conn c) []) (List.nodup_singleton _)
      (fun x hx => ?_) (by simp))
    rw [List.mem_singleton.mp hx]
    exact ⟨⟨hc, hready⟩, Bool.eq_true_of_not_eq_false hedge⟩
  refine ⟨hinv.world.flow c, fun hne => ?_, fun hend => ?_⟩
  · exact (hinv.left c hc (hedge (Or.inl hne)) hno).1 hne
  · exact (hinv.left c hc (hedge (Or.inr (Or.inl hend))) hno).2 hend

def said : World :=
  (World.start.connect.setSocket 0 (Socket.fresh.arrive [104, 105])).setSocket 0
    (Socket.fresh.arrive [104, 105]).hangUp

def heard : Once :=
  start.goOn (((((said.report [.listener]).accept 0 []).report [.conn 0])).read 0 1024) []

theorem heard_run : Run Step 7 start heard := by
  have hconnect : Step start { start with world := World.start.connect } := .client .connect
  have hsend := (Run.tail (.refl start) hconnect).tail (.client
    (@Client.send World.start.connect 0 [104, 105] (by decide) ⟨rfl, rfl⟩ (List.cons_ne_nil _ _)))
  have hclose := hsend.tail (.client (w := said) (@Client.hangUp
    (World.start.connect.setSocket 0 (Socket.fresh.arrive [104, 105])) 0 (by decide) ⟨rfl, rfl⟩))
  have hwait := hclose.tail (.works (.wait rfl rfl (List.cons_ne_nil Source.listener [])
    (List.nodup_singleton _) (by decide) (by decide)))
  have haccept := hwait.tail (.works (@Works.accept _ [] 0 [] rfl rfl rfl))
  have hwait := haccept.tail (.works (.wait rfl rfl (List.cons_ne_nil (Source.conn 0) [])
    (List.nodup_singleton _) (by decide) (by decide)))
  exact hwait.tail (.works (.print (c := 0) rfl rfl (by decide)))

theorem heard_stuck : Stuck Works heard := by
  intro t ht
  cases ht with
  | wait hrun hidle hne hnodup hready hlen =>
    rename_i batch
    obtain ⟨x, hx⟩ := List.exists_mem_of_ne_nil batch hne
    obtain ⟨hr, he⟩ := hready x hx
    cases x with
    | listener => exact hr rfl
    | conn c =>
      obtain rfl : c = 0 := List.mem_singleton.mp hr.1
      cases he
  | accept hrun htodo => cases htodo
  | skip hrun htodo => cases htodo
  | print hrun htodo => cases htodo
  | close hrun htodo => cases htodo

theorem left_behind_sample : (heard.world.socket 0).arrived = [104, 105] ++ [] ∧
    (heard.world.socket 0).reads ≠ [] := by
  obtain ⟨hflow, -, hreads⟩ := left_behind heard_run rfl rfl heard_stuck (List.mem_singleton_self 0)
  exact ⟨hflow, hreads rfl⟩

structure Missed (c : ℕ) (reads : List (List UInt8)) (s : Once) : Prop where
  inv : OnceInv s
  accepted : c ∈ s.world.accepted
  ended : (s.world.socket c).ended = true
  edge : (s.world.socket c).edge = false
  unqueued : Source.conn c ∉ s.todo
  reads : (s.world.socket c).reads = reads

theorem missed_step {reads : List (List UInt8)} (h : Missed c reads s) (hs : Step s u) :
    Missed c reads u := by
  have hinv := once_inv_step h.inv hs
  -- no step touches the socket of the client any more
  have hsame : ∀ {v : Once}, OnceInv v → c ∈ v.world.accepted →
      v.world.socket c = s.world.socket c → Source.conn c ∉ v.todo → Missed c reads v := by
    intro v hv hc hsock hno
    exact ⟨hv, hc, hsock ▸ h.ended, hsock ▸ h.edge, hno, hsock ▸ h.reads⟩
  have hgone : ¬ (s.world.socket c).Alive := fun halive => by
    have := h.ended
    rw [halive.1] at this
    cases this
  have htail : ∀ {x rest}, s.todo = x :: rest → x ≠ .conn c ∧ Source.conn c ∉ rest := by
    intro x rest htodo
    have hno := h.unqueued
    rw [htodo] at hno
    obtain ⟨hx, hrest⟩ := not_or.mp (mt List.mem_cons.mpr hno)
    exact ⟨Ne.symm hx, hrest⟩
  cases hs with
  | client hc =>
    apply hsame hinv
    · rcases client_cases hc with rfl | ⟨d, sock, -, -, rfl, -⟩
      · exact h.accepted
      · exact h.accepted
    · exact client_after_end hc hgone
    · exact h.unqueued
  | fails hf =>
    cases hf <;> exact hsame hinv h.accepted rfl h.unqueued
  | works hw =>
    cases hw with
    | wait hrun hidle hne hnodup hready hlen =>
      rename_i batch
      have hno : Source.conn c ∉ batch := fun hm => by
        have := (hready _ hm).2
        rw [World.Edge, h.edge] at this
        cases this
      obtain ⟨-, -, hacc, -⟩ := report_keeps batch s.world
      refine hsame hinv ?_ (report_socket hno) hno
      rw [goOn, hacc]
      exact h.accepted
    | accept hrun htodo hback =>
      rename_i rest d cs
      have hcd : c ≠ d := by
        rintro rfl
        refine (List.nodup_append.mp h.inv.world.distinct).2.2 c ?_ c h.accepted rfl
        rw [hback]
        exact List.mem_cons_self
      exact hsame hinv (List.mem_cons_of_mem d h.accepted) (set_socket_ne hcd) (htail htodo).2
    | skip hrun htodo => exact hsame hinv h.accepted rfl (htail htodo).2
    | print hrun htodo hne =>
      have hcd : c ≠ _ := fun he => (htail htodo).1 (congrArg Source.conn he.symm)
      exact hsame hinv h.accepted (set_socket_ne hcd) (htail htodo).2
    | close hrun htodo hnil hended =>
      have hcd : c ≠ _ := fun he => (htail htodo).1 (congrArg Source.conn he.symm)
      exact hsame hinv ((List.mem_erase_of_ne hcd).mpr h.accepted) rfl (htail htodo).2

/-- A client whose closing was reported together with bytes is never closed by the server: its
descriptor stays open, and nothing more is read from it. -/
theorem missed_end_stays_open (h : Run Step n start s) (hidle : s.todo = [])
    (hc : c ∈ s.world.accepted) (hend : (s.world.socket c).ended = true)
    (hedge : (s.world.socket c).edge = false) (hrest : Run Step m s u) :
    c ∈ u.world.accepted ∧ (u.world.socket c).reads = (s.world.socket c).reads := by
  have hkeep : ∀ t v, Missed c (s.world.socket c).reads t → Step t v →
      Missed c (s.world.socket c).reads v := fun _ _ => missed_step
  have hno : Source.conn c ∉ s.todo := by
    rw [hidle]
    exact List.not_mem_nil
  have hmissed := run_invariant hkeep ⟨once_inv_run h, hc, hend, hedge, hno, rfl⟩ hrest
  exact ⟨hmissed.accepted, hmissed.reads⟩

theorem missed_end_sample : ¬ ∃ m u, Run Step m heard u ∧ 0 ∉ u.world.accepted := by
  rintro ⟨m, u, hrest, hclosed⟩
  exact hclosed (missed_end_stays_open heard_run rfl (List.mem_singleton_self 0) rfl rfl hrest).1

end Results

end Once

/-- The server that reads until a read fails or there is an end: in its loop over the events, in
its loop over the reads, or behind its return. -/
structure Draining where
  world : World
  todo : List Source
  reading : Option ℕ
  running : Bool

namespace Draining

def start : Draining := ⟨World.start, [], none, true⟩

def goOn (s : Draining) (w : World) (todo : List Source) (reading : Option ℕ) : Draining :=
  { s with world := w, todo := todo, reading := reading }

/-- Nothing makes the sockets non-blocking: a read with nothing to read waits. -/
inductive Works : Draining → Draining → Prop where
  | wait {s batch} (hrun : s.running = true) (hout : s.reading = none) (hidle : s.todo = [])
      (hne : batch ≠ []) (hnodup : batch.Nodup)
      (hready : ∀ x ∈ batch, s.world.Ready x ∧ (x ≠ .listener → s.world.Edge x))
      (hlen : batch.length ≤ 64) :
      Works s (s.goOn (s.world.report batch) batch none)
  | accept {s rest c cs} (hrun : s.running = true) (hout : s.reading = none)
      (htodo : s.todo = .listener :: rest) (hback : s.world.backlog = c :: cs) :
      Works s (s.goOn (s.world.accept c cs) rest none)
  | enter {s c rest} (hrun : s.running = true) (hout : s.reading = none)
      (htodo : s.todo = .conn c :: rest) : Works s (s.goOn s.world rest (some c))
  | print {s c} (hrun : s.running = true) (hin : s.reading = some c)
      (hne : (s.world.socket c).inbound ≠ []) :
      Works s (s.goOn (s.world.read c 1024) s.todo (some c))
  | close {s c} (hrun : s.running = true) (hin : s.reading = some c)
      (hdone : (s.world.socket c).inbound = [] ∧ (s.world.socket c).ended = true ∨
        (s.world.socket c).reset = true) :
      Works s (s.goOn (s.world.close c) s.todo none)

inductive Fails : Draining → Draining → Prop where
  | wait {s} (hrun : s.running = true) (hout : s.reading = none) (hidle : s.todo = []) :
      Fails s { s with running := false }
  | accept {s rest} (hrun : s.running = true) (hout : s.reading = none)
      (htodo : s.todo = .listener :: rest) : Fails s { s with running := false }
  | del {s c} (hrun : s.running = true) (hin : s.reading = some c)
      (hdone : (s.world.socket c).inbound = [] ∧ (s.world.socket c).ended = true ∨
        (s.world.socket c).reset = true) : Fails s { s with running := false }

inductive Step : Draining → Draining → Prop where
  | client {s w} (h : Client s.world w) : Step s { s with world := w }
  | works {s t} (h : Works s t) : Step s t
  | fails {s t} (h : Fails s t) : Step s t

/-- A connection that no event is to come for has nothing for the server, and the server has
closed only those that had ended, with all of it read, or been reset. -/
structure DrainInv (s : Draining) : Prop where
  world : WorldInv 1024 s.world
  ready : ∀ x ∈ s.todo, s.world.Ready x
  nodup : s.todo.Nodup
  entered : ∀ c, s.reading = some c → c ∈ s.world.accepted ∧ Source.conn c ∉ s.todo
  idle : ∀ c ∈ s.world.accepted, (s.world.socket c).edge = false → Source.conn c ∉ s.todo →
    s.reading ≠ some c → ¬ (s.world.socket c).Ready
  closed : ∀ c < s.world.connected, c ∉ s.world.backlog ++ s.world.accepted →
    (s.world.socket c).inbound = [] ∧ (s.world.socket c).ended = true ∨
      (s.world.socket c).reset = true

section Invariant

variable {s t : Draining}

theorem drain_inv_start : DrainInv start :=
  ⟨world_inv_start, by simp [start], by simp [start], by simp [start],
    by simp [start, World.start], fun _ h => absurd h (by simp [start, World.start])⟩

theorem drain_inv_client {w : World} (h : DrainInv s) (hs : Client s.world w) :
    DrainInv { s with world := w } := by
  refine ⟨world_inv_client h.world hs, fun x hx => client_ready hs (h.ready x hx), h.nodup, ?_, ?_,
    fun c hc hno => ?_⟩
  · rcases client_cases hs with rfl | ⟨d, sock, -, -, rfl, -⟩
    · exact h.entered
    · exact h.entered
  · rcases client_cases hs with rfl | ⟨d, sock, -, -, rfl, -, -, hedge, -⟩
    · exact h.idle
    · intro c hc
      by_cases hcd : c = d
      · subst hcd
        intro hno
        simp only [set_socket_self] at hno
        rw [hedge] at hno
        cases hno
      · simp only [set_socket_ne hcd]
        exact h.idle c hc
  · obtain ⟨hc, hno⟩ := client_placed hs hc hno
    have hdone := h.closed c hc hno
    have hgone : ¬ (s.world.socket c).Alive := by
      rintro ⟨hend, hres⟩
      rcases hdone with ⟨-, hdone⟩ | hdone
      · exact absurd (hend.symm.trans hdone) Bool.false_ne_true
      · exact absurd (hres.symm.trans hdone) Bool.false_ne_true
    simp only
    rwa [client_after_end hs hgone]

theorem drain_inv_works (h : DrainInv s) (hs : Works s t) : DrainInv t := by
  cases hs with
  | wait hrun hout hidle hne hnodup hready hlen =>
    rename_i batch
    obtain ⟨hconn, hback, hacc, hkeeps⟩ := report_keeps batch s.world
    refine ⟨world_inv_report h.world batch, fun x hx => (report_ready batch).mpr (hready x hx).1,
      hnodup, nofun, fun c hc hedge hno _ => ?_, fun c hc hno => ?_⟩
    · have hsock : (s.world.report batch).socket c = s.world.socket c := report_socket hno
      simp only [goOn] at hc hedge ⊢
      rw [hacc] at hc
      rw [hsock] at hedge ⊢
      exact h.idle c hc hedge (by rw [hidle]; exact List.not_mem_nil) (by rw [hout]; nofun)
    · simp only [goOn] at hc hno
      rw [hconn] at hc
      rw [hback, hacc] at hno
      have hdone := h.closed c hc hno
      rw [← hkeeps c] at hdone
      exact hdone
  | accept hrun hout htodo hback =>
    rename_i rest c cs
    obtain ⟨hready, -, hnodup⟩ := rest_of_batch (v := s.world.accept c cs) h.ready h.nodup htodo
      fun y hy hr => by
        cases y with
        | listener => exact absurd rfl hy
        | conn d => exact accept_ready hr
    refine ⟨world_inv_serve (by decide) h.world (.accept hback), hready, hnodup, nofun,
      fun d hd hedge hno _ => ?_, fun d hd hno => ?_⟩
    · by_cases hdc : d = c
      · subst hdc
        have hsock : (s.world.accept d cs).socket d = (s.world.socket d).register := set_socket_self
        simp only [goOn, hsock, Socket.register, decide_eq_false_iff_not] at hedge ⊢
        exact hedge
      · have hold : d ∈ s.world.accepted := (List.mem_cons.mp hd).resolve_left hdc
        have hsock : (s.world.accept c cs).socket d = s.world.socket d := set_socket_ne hdc
        simp only [goOn, hsock] at hedge hno ⊢
        refine h.idle d hold hedge (fun hm => ?_) (by rw [hout]; nofun)
        rw [htodo] at hm
        exact hno ((List.mem_cons.mp hm).resolve_left nofun)
    · obtain ⟨b, hsock⟩ := accept_keeps s.world c cs d
      simp only [goOn, hsock]
      exact h.closed d hd fun hm => hno ((accept_perm hback).mem_iff.mpr hm)
  | enter hrun hout htodo =>
    rename_i c rest
    have hc := (h.ready (.conn c) (htodo ▸ List.mem_cons_self)).1
    obtain ⟨hready, hx, hnodup⟩ := rest_of_batch h.ready h.nodup htodo fun y hy hr => hr
    refine ⟨h.world, hready, hnodup, fun d hd => ?_, fun d hd hedge hno hnot => ?_, h.closed⟩
    · obtain rfl := Option.some.inj hd
      exact ⟨hc, hx⟩
    · refine h.idle d hd hedge (fun hm => ?_) (by rw [hout]; nofun)
      rw [htodo] at hm
      rcases List.mem_cons.mp hm with he | hm
      · exact hnot (congrArg some (Source.conn.inj he).symm)
      · exact hno hm
  | print hrun hin hne =>
    rename_i c
    obtain ⟨hc, hx⟩ := h.entered c hin
    refine ⟨world_inv_serve (by decide) h.world (.read hc hne),
      fun y hy => read_ready (fun he => hx (he ▸ hy)) (h.ready y hy), h.nodup, fun d hd => ?_,
      fun d hd hedge hno hnot => ?_, fun d hd hno => ?_⟩
    · obtain rfl := Option.some.inj hd
      exact ⟨hc, hx⟩
    · have hdc : d ≠ c := fun he => hnot (congrArg some he.symm)
      have hsock : (s.world.read c 1024).socket d = s.world.socket d := set_socket_ne hdc
      simp only [goOn, hsock] at hedge ⊢
      exact h.idle d hd hedge hno (by rw [hin]; exact hnot)
    · have hdc : d ≠ c := by
        rintro rfl
        exact hno (List.mem_append_right _ hc)
      have hsock : (s.world.read c 1024).socket d = s.world.socket d := set_socket_ne hdc
      simp only [goOn, hsock]
      exact h.closed d hd hno
  | close hrun hin hdone =>
    rename_i c
    obtain ⟨hc, hx⟩ := h.entered c hin
    refine ⟨world_inv_serve (by decide) h.world (.close hc),
      fun y hy => close_ready (fun he => hx (he ▸ hy)) (h.ready y hy), h.nodup, nofun,
      fun d hd hedge hno _ => ?_, fun d hd hno => ?_⟩
    · have hacc := (List.nodup_append.mp h.world.distinct).2.1
      obtain ⟨hdc, hold⟩ := hacc.mem_erase_iff.mp hd
      refine h.idle d hold hedge hno ?_
      rw [hin]
      exact fun he => hdc (Option.some.inj he).symm
    by_cases hdc : d = c
    · subst hdc
      exact hdone
    · refine h.closed d hd fun hm => hno ?_
      rcases List.mem_append.mp hm with hm | hm
      · exact List.mem_append_left _ hm
      · exact List.mem_append_right _ ((List.mem_erase_of_ne hdc).mpr hm)

theorem drain_inv_step (h : DrainInv s) (hs : Step s t) : DrainInv t := by
  cases hs with
  | client hc => exact drain_inv_client h hc
  | works hw => exact drain_inv_works h hw
  | fails hf => cases hf <;> exact ⟨h.world, h.ready, h.nodup, h.entered, h.idle, h.closed⟩

theorem drain_inv_run {n : ℕ} (h : Run Step n start s) : DrainInv s := by
  have hkeep : ∀ s t, DrainInv s → Step s t → DrainInv t := fun _ _ => drain_inv_step
  exact run_invariant hkeep drain_inv_start h

end Invariant

section Results

variable {s u : Draining} {n m c : ℕ}

/-- Three turns for everything that is to be done, and those in front of a read. -/
def turnsLeft (s : Draining) : ℕ :=
  3 * s.world.work + if s.reading ≠ none then 0 else if s.todo ≠ [] then 1 else 2

theorem works_less (hinv : DrainInv s) (hs : Works s u) : turnsLeft u < turnsLeft s := by
  have hlast : ∀ v : Draining, turnsLeft v ≤ 3 * v.world.work + 2 := by
    intro v
    rw [turnsLeft]
    split
    · omega
    · split <;> omega
  have hout : ∀ {x rest}, s.reading = none → s.todo = x :: rest →
      turnsLeft s = 3 * s.world.work + 1 := by
    intro x rest hr htodo
    rw [turnsLeft, hr, htodo]
    simp
  cases hs with
  | wait hrun hr hidle hne hnodup hready hlen =>
    rename_i batch
    have hwork : (s.world.report batch).work = s.world.work := work_report batch
    simp [turnsLeft, goOn, hr, hidle, hne, hwork]
  | accept hrun hr htodo hback =>
    rename_i rest c cs
    have hwork := work_accept hinv.world.distinct hback
    have : turnsLeft (s.goOn (s.world.accept c cs) rest none) ≤
        3 * (s.world.accept c cs).work + 2 := hlast _
    rw [hout hr htodo]
    omega
  | enter hrun hr htodo =>
    rw [hout hr htodo]
    simp [turnsLeft, goOn]
  | print hrun hin hne =>
    rename_i c
    have hwork : (s.world.read c 1024).work < s.world.work :=
      work_read hinv.world.distinct (by decide) (hinv.entered c hin).1 hne
    simp only [turnsLeft, goOn, hin]
    simpa using hwork
  | close hrun hin hdone =>
    rename_i c
    have hwork := work_close (hinv.entered c hin).1
    have hsock : (s.world.socket c).work ≠ 0 := by
      intro h0
      refine work_eq_zero_iff.mp h0 (Or.inr ?_)
      exact hdone.elim (fun h => Or.inl h.2) Or.inr
    have : turnsLeft (s.goOn (s.world.close c) s.todo none) ≤
        3 * (s.world.close c).work + 2 := hlast _
    have : turnsLeft s = 3 * s.world.work := by
      rw [turnsLeft, hin]
      simp
    omega

/-- A client that the server has closed has reset its connection, or ended it with everything
printed. Left to itself the server comes to wait: in the read of one connection, all of which has
been printed, until that client closes; or in epoll_wait, with everybody accepted and all that
the clients have sent printed. -/
theorem drained_where_blocked (h : Run Step n start s) (hrun : s.running = true) :
    (∀ m u, Run Works m s u → m ≤ 3 * s.world.work + 2) ∧
      (∀ c < s.world.connected, c ∉ s.world.backlog ++ s.world.accepted →
        (s.world.socket c).reset = true ∨ (s.world.socket c).ended = true ∧
          (s.world.socket c).taken = (s.world.socket c).arrived) ∧
      (Stuck Works s →
        (∃ c ∈ s.world.accepted, s.reading = some c ∧ (s.world.socket c).Alive ∧
          (s.world.socket c).taken = (s.world.socket c).arrived) ∨
        (s.reading = none ∧ s.todo = [] ∧ s.world.backlog = [] ∧ ∀ c ∈ s.world.accepted,
          (s.world.socket c).Alive ∧ (s.world.socket c).taken = (s.world.socket c).arrived)) := by
  have hinv := drain_inv_run h
  refine ⟨?_, fun c hc hno => ?_, ?_⟩
  · intro m u hm
    have hkeep : ∀ t v, DrainInv t → Works t v → DrainInv v := fun _ _ => drain_inv_works
    have hless : ∀ t v, DrainInv t → Works t v → turnsLeft v < turnsLeft t :=
      fun _ _ ht hs => works_less ht hs
    have hbound := run_bounded hkeep hless hinv hm
    have hle : turnsLeft s ≤ 3 * s.world.work + 2 := by
      rw [turnsLeft]
      split
      · omega
      · split <;> omega
    omega
  · rcases hinv.closed c hc hno with ⟨hnil, hend⟩ | hres
    · have hflow := hinv.world.flow c
      rw [hnil, List.append_nil] at hflow
      exact Or.inr ⟨hend, hflow.symm⟩
    · exact Or.inl hres
  · intro hstuck
    have hprinted : ∀ c, ¬ (s.world.socket c).Ready → (s.world.socket c).Alive ∧
        (s.world.socket c).taken = (s.world.socket c).arrived := by
      intro c hidle
      rw [Socket.Ready, not_or, not_or, not_not] at hidle
      have hflow := hinv.world.flow c
      rw [hidle.1, List.append_nil] at hflow
      exact ⟨⟨Bool.eq_false_iff.mpr hidle.2.1, Bool.eq_false_iff.mpr hidle.2.2⟩, hflow.symm⟩
    cases hreading : s.reading with
    | some c =>
      have hidle : ¬ (s.world.socket c).Ready := by
        rintro (hne | hend)
        · exact hstuck _ (.print hrun hreading hne)
        · by_cases hne : (s.world.socket c).inbound = []
          · refine hstuck _ (.close hrun hreading ?_)
            exact hend.imp (fun h => ⟨hne, h⟩) id
          · exact hstuck _ (.print hrun hreading hne)
      exact Or.inl ⟨c, (hinv.entered c hreading).1, rfl, hprinted c hidle⟩
    | none =>
      have htodo : s.todo = [] := by
        by_contra hne
        obtain ⟨x, rest, htodo⟩ := List.exists_cons_of_ne_nil hne
        cases x with
        | listener =>
          obtain ⟨c, cs, hback⟩ := List.exists_cons_of_ne_nil
            (hinv.ready .listener (htodo ▸ List.mem_cons_self))
          exact hstuck _ (.accept hrun hreading htodo hback)
        | conn c => exact hstuck _ (.enter hrun hreading htodo)
      -- a single event would be enough for epoll_wait to come back
      have hwait : ∀ x, s.world.Ready x → (x ≠ .listener → s.world.Edge x) → False := by
        intro x hx hedge
        refine hstuck _ (.wait hrun hreading htodo (List.cons_ne_nil x []) (List.nodup_singleton x)
          (fun y hy => ?_) (by simp))
        rw [List.mem_singleton.mp hy]
        exact ⟨hx, hedge⟩
      refine Or.inr ⟨rfl, htodo, ?_, fun c hc => hprinted c fun hready => ?_⟩
      · by_contra hback
        exact hwait .listener hback (absurd rfl)
      · refine hwait (.conn c) ⟨hc, hready⟩ fun _ => ?_
        rw [World.Edge]
        by_contra hedge
        refine hinv.idle c hc (Bool.eq_false_iff.mpr hedge) ?_ ?_ hready
        · rw [htodo]
          exact List.not_mem_nil
        · rw [hreading]
          exact (Option.some_ne_none c).symm

structure HeldUp (c : ℕ) (s u : Draining) : Prop where
  reading : u.reading = some c
  todo : u.todo = s.todo
  running : u.running = s.running
  accepted : u.world.accepted = s.world.accepted
  backlog : s.world.backlog <+: u.world.backlog
  others : ∀ d, d ≠ c → (u.world.socket d).reads = (s.world.socket d).reads

theorem held_up_step {v : Draining} (h : HeldUp c s u) (hs : Step u v)
    (halive : (v.world.socket c).Alive) : HeldUp c s v := by
  cases hs with
  | client hc =>
    refine ⟨h.reading, h.todo, h.running, ?_, ?_, fun d hd => ?_⟩
    · rcases client_cases hc with rfl | ⟨d, sock, -, -, rfl, -⟩
      · exact h.accepted
      · exact h.accepted
    · rcases client_cases hc with rfl | ⟨d, sock, -, -, rfl, -⟩
      · exact h.backlog.trans (List.prefix_append _ _)
      · exact h.backlog
    · exact (client_reads hc d).trans (h.others d hd)
  | fails hf =>
    cases hf with
    | wait hrun hout => exact absurd (h.reading.symm.trans hout) nofun
    | accept hrun hout => exact absurd (h.reading.symm.trans hout) nofun
    | del hrun hin hdone =>
      obtain rfl := Option.some.inj (h.reading.symm.trans hin)
      rcases hdone with ⟨-, hend⟩ | hres
      · exact absurd (halive.1.symm.trans hend) nofun
      · exact absurd (halive.2.symm.trans hres) nofun
  | works hw =>
    cases hw with
    | wait hrun hout => exact absurd (h.reading.symm.trans hout) nofun
    | accept hrun hout => exact absurd (h.reading.symm.trans hout) nofun
    | enter hrun hout => exact absurd (h.reading.symm.trans hout) nofun
    | print hrun hin hne =>
      obtain rfl := Option.some.inj (h.reading.symm.trans hin)
      refine ⟨rfl, h.todo, h.running, h.accepted, h.backlog, fun d hd => ?_⟩
      have hsock : (u.world.read c 1024).socket d = u.world.socket d := set_socket_ne hd
      rw [goOn, hsock]
      exact h.others d hd
    | close hrun hin hdone =>
      obtain rfl := Option.some.inj (h.reading.symm.trans hin)
      rcases hdone with ⟨-, hend⟩ | hres
      · exact absurd (halive.1.symm.trans hend) nofun
      · exact absurd (halive.2.symm.trans hres) nofun

theorem alive_before {v : Draining} (hs : Step u v) (halive : (v.world.socket c).Alive) :
    (u.world.socket c).Alive := by
  cases hs with
  | client hc =>
    by_contra hgone
    rw [client_after_end hc hgone] at halive
    exact hgone halive
  | fails hf => cases hf <;> exact halive
  | works hw =>
    cases hw with
    | wait hrun hout hidle hne hnodup hready hlen =>
      rename_i batch
      obtain ⟨-, -, -, hsock⟩ := report_keeps batch u.world
      rw [← hsock c]
      exact halive
    | accept hrun hout htodo hback =>
      rename_i rest d cs
      obtain ⟨b, hsock⟩ := accept_keeps u.world d cs c
      simp only [goOn, hsock] at halive
      exact halive
    | enter hrun => exact halive
    | print hrun hin hne =>
      rename_i d
      obtain ⟨-, hend, hres⟩ := read_keeps u.world d 1024 c
      exact ⟨hend.symm.trans halive.1, hres.symm.trans halive.2⟩
    | close hrun => exact halive

/-- As long as the client whose connection is being read neither closes nor resets it, the server
accepts nobody and reads nothing from anybody else, whatever they do. -/
theorem held_up (hreading : s.reading = some c) (hrest : Run Step m s u)
    (halive : (u.world.socket c).Alive) :
    u.reading = some c ∧ u.todo = s.todo ∧ u.world.accepted = s.world.accepted ∧
      s.world.backlog <+: u.world.backlog ∧
      ∀ d, d ≠ c → (u.world.socket d).reads = (s.world.socket d).reads := by
  have hkeep : ∀ t v, ((t.world.socket c).Alive → HeldUp c s t) → Step t v →
      (v.world.socket c).Alive → HeldUp c s v :=
    fun t v ht hs hv => held_up_step (ht (alive_before hs hv)) hs hv
  have hstart : (s.world.socket c).Alive → HeldUp c s s := fun _ =>
    ⟨hreading, rfl, rfl, rfl, List.prefix_refl _, fun _ _ => rfl⟩
  have hheld := run_invariant hkeep hstart hrest halive
  exact ⟨hheld.reading, hheld.todo, hheld.accepted, hheld.backlog, hheld.others⟩

def reader : Draining :=
  start.goOn ((((World.start.connect.setSocket 0 (Socket.fresh.arrive [104, 105])).report
    [.listener]).accept 0 []).report [.conn 0]) [] (some 0)

theorem reader_run : Run Step 6 start reader := by
  have hconnect : Step start { start with world := World.start.connect } := .client .connect
  have hsend := (Run.tail (.refl start) hconnect).tail (.client
    (@Client.send World.start.connect 0 [104, 105] (by decide) ⟨rfl, rfl⟩ (List.cons_ne_nil _ _)))
  have hwait := hsend.tail (.works (.wait rfl rfl rfl (List.cons_ne_nil Source.listener [])
    (List.nodup_singleton _) (by decide) (by decide)))
  have haccept := hwait.tail (.works (@Works.accept _ [] 0 [] rfl rfl rfl rfl))
  have hwait := haccept.tail (.works (.wait rfl rfl rfl (List.cons_ne_nil (Source.conn 0) [])
    (List.nodup_singleton _) (by decide) (by decide)))
  exact hwait.tail (.works (.enter (c := 0) rfl rfl rfl))

theorem drained_where_blocked_sample : ¬ ∃ u, Run Works 9 reader u := by
  rintro ⟨u, hrun⟩
  have hle : 9 ≤ 8 := (drained_where_blocked reader_run rfl).1 9 u hrun
  exact absurd hle (by decide)

theorem held_up_sample : ∃ u, Run Step 1 reader u ∧ u.world.accepted = [0] ∧
    [] <+: u.world.backlog := by
  have hstep : Step reader { reader with world := reader.world.connect } := .client .connect
  have hrun := Run.tail (.refl reader) hstep
  obtain ⟨-, -, hacc, hback, -⟩ := held_up (c := 0) rfl hrun ⟨rfl, rfl⟩
  exact ⟨_, hrun, hacc, hback⟩

end Results

end Draining

end EdgeServers
