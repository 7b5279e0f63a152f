import MakeDownFile.EpollSockets
import Mathlib.Data.List.ModifyLast

/-! # The echo server

The first of the epoll examples: level-triggered, one read of up to 1024 bytes for an event,
and a write of what was read, whose result nobody looks at. The sockets are blocking ones, and
a write waits for the client to make room for all of it. -/
namespace EchoServer

open EpollSockets
open StepRelations

/-- The server in its loop or behind its return. `counts` has how much each write to a
connection has taken, `writing` what the one that has not returned has still to write, and
`room` is what a client can be sent. -/
structure Server where
  world : World
  todo : List Source
  counts : ℕ → List ℕ
  writing : Option (ℕ × ℕ)
  room : ℕ → ℕ
  running : Bool

def start : Server := ⟨World.start, [], fun _ => [], none, fun _ => 0, true⟩

namespace Server

variable (s : Server)

def withWorld (w : World) : Server := { s with world := w }

def goOn (w : World) (todo : List Source) : Server := { s with world := w, todo := todo }

def makeRoom (c k : ℕ) : Server := { s with room := Function.update s.room c (s.room c + k) }

def beginWrite (c n : ℕ) : Server :=
  { s with counts := Function.update s.counts c (s.counts c ++ [0]), writing := some (c, n) }

def write (c left k : ℕ) : Server :=
  { s with
    counts := Function.update s.counts c ((s.counts c).modifyLast (· + k))
    writing := some (c, left - k)
    room := Function.update s.room c (s.room c - k) }

def endWrite : Server := { s with writing := none }

def stop : Server := { s with running := false }

def echoed (c : ℕ) : List UInt8 :=
  (List.zipWith List.take (s.counts c) (s.world.socket c).reads).flatten

def pending (c : ℕ) : ℕ :=
  match s.writing with
  | some (d, left) => if d = c then left else 0
  | none => 0

def Lossless (c : ℕ) : Prop :=
  (s.echoed c).length + s.pending c = (s.world.socket c).taken.length

end Server

/-- A turn of the loop, or a part of the write in it, in which every call does its work. -/
inductive Works : Server → Server → Prop where
  | wait {s batch} (hrun : s.running = true) (hout : s.writing = none) (hidle : s.todo = [])
      (hne : batch ≠ []) (hnodup : batch.Nodup) (hready : ∀ x ∈ batch, s.world.Ready x)
      (hlen : batch.length ≤ 1024) : Works s (s.goOn s.world batch)
  | accept {s rest c cs} (hrun : s.running = true) (hout : s.writing = none)
      (htodo : s.todo = .listener :: rest) (hback : s.world.backlog = c :: cs) :
      Works s (s.goOn (s.world.accept c cs) rest)
  | read {s c rest} (hrun : s.running = true) (hout : s.writing = none)
      (htodo : s.todo = .conn c :: rest) (hne : (s.world.socket c).inbound ≠ []) :
      Works s ((s.goOn (s.world.read c 1024) rest).beginWrite c
        ((s.world.socket c).inbound.take 1024).length)
  | write {s c left k} (hrun : s.running = true) (hin : s.writing = some (c, left)) (hpos : 0 < k)
      (hleft : k ≤ left) (hroom : k ≤ s.room c) : Works s (s.write c left k)
  | written {s c} (hrun : s.running = true) (hin : s.writing = some (c, 0)) : Works s s.endWrite
  | close {s c rest} (hrun : s.running = true) (hout : s.writing = none)
      (htodo : s.todo = .conn c :: rest) (hnil : (s.world.socket c).inbound = [])
      (hended : (s.world.socket c).ended = true) : Works s (s.goOn (s.world.close c) rest)

/-- The failures behind which main returns, the signal for a write to a client that is no
longer there, and a write that an error or a signal cuts short. -/
inductive Fails : Server → Server → Prop where
  | wait {s} (hrun : s.running = true) (hout : s.writing = none) (hidle : s.todo = []) :
      Fails s s.stop
  | accept {s rest} (hrun : s.running = true) (hout : s.writing = none)
      (htodo : s.todo = .listener :: rest) : Fails s s.stop
  | read {s c rest} (hrun : s.running = true) (hout : s.writing = none)
      (htodo : s.todo = .conn c :: rest) (hreset : (s.world.socket c).reset = true) :
      Fails s s.stop
  | del {s c rest} (hrun : s.running = true) (hout : s.writing = none)
      (htodo : s.todo = .conn c :: rest) (hnil : (s.world.socket c).inbound = [])
      (hended : (s.world.socket c).ended = true) : Fails s s.stop
  | pipe {s c left} (hrun : s.running = true) (hin : s.writing = some (c, left))
      (hgone : ¬ (s.world.socket c).Alive) : Fails s s.stop
  | cut {s c left} (hrun : s.running = true) (hin : s.writing = some (c, left)) :
      Fails s s.endWrite

/-- Clients and server in any order. A client makes room by reading. -/
inductive Step : Server → Server → Prop where
  | client {s w} (h : Client s.world w) : Step s (s.withWorld w)
  | makeRoom {s c k} (hc : c < s.world.connected) : Step s (s.makeRoom c k)
  | works {s t} (h : Works s t) : Step s t
  | fails {s t} (h : Fails s t) : Step s t

structure Writing (w : World) (counts : ℕ → List ℕ) (c left : ℕ) : Prop where
  accepted : c ∈ w.accepted
  last : ∃ ks k chunks chunk, counts c = ks ++ [k] ∧ (w.socket c).reads = chunks ++ [chunk] ∧
    ks.length = chunks.length ∧ k + left = chunk.length

/-- The events of a batch are still to be handled, and can be. Every read has its write, and
only clients that have closed have been closed. -/
structure EchoInv (s : Server) : Prop where
  world : WorldInv 1024 s.world
  ready : ∀ x ∈ s.todo, s.world.Ready x
  nodup : s.todo.Nodup
  counted : ∀ c, List.Forall₂ (fun k chunk => k ≤ chunk.length) (s.counts c)
    (s.world.socket c).reads
  current : ∀ c left, s.writing = some (c, left) → Writing s.world s.counts c left
  closed : ∀ c < s.world.connected, c ∉ s.world.backlog ++ s.world.accepted →
    (s.world.socket c).inbound = [] ∧ (s.world.socket c).ended = true

section Invariant

variable {s t : Server}

theorem echo_inv_start : EchoInv start :=
  ⟨world_inv_start, by simp [start], by simp [start], fun _ => .nil, by simp [start],
    fun _ h => absurd h (by simp [start, World.start])⟩

theorem echo_inv_client {w : World} (h : EchoInv s) (hs : Client s.world w) :
    EchoInv (s.withWorld w) := by
  refine ⟨world_inv_client h.world hs, fun x hx => client_ready hs (h.ready x hx), h.nodup,
    fun c => ?_, fun c left hin => ?_, fun c hc hno => ?_⟩
  · have := h.counted c
    rwa [← client_reads hs c] at this
  · obtain ⟨hacc, hlast⟩ := h.current c left hin
    rw [← client_reads hs c] at hlast
    refine ⟨?_, hlast⟩
    rcases client_cases hs with rfl | ⟨d, sock, -, -, rfl, -⟩
    · exact hacc
    · exact hacc
  · obtain ⟨hc, hno⟩ := client_placed hs hc hno
    obtain ⟨hnil, hended⟩ := h.closed c hc hno
    have hgone : ¬ (s.world.socket c).Alive := fun halive => by
      rw [halive.1] at hended
      cases hended
    simp only [Server.withWorld]
    rw [client_after_end hs hgone]
    exact ⟨hnil, hended⟩

theorem echo_inv_read (h : EchoInv s) {c : ℕ} {rest : List Source}
    (htodo : s.todo = .conn c :: rest) (hne : (s.world.socket c).inbound ≠ []) :
    EchoInv ((s.goOn (s.world.read c 1024) rest).beginWrite c
      ((s.world.socket c).inbound.take 1024).length) := by
  have hc := (h.ready (.conn c) (htodo ▸ List.mem_cons_self)).1
  obtain ⟨hready, -, hnodup⟩ := rest_of_batch (v := s.world.read c 1024) h.ready h.nodup htodo
    fun y hy hr => read_ready hy hr
  have hsock : (s.world.read c 1024).socket c = (s.world.socket c).read 1024 := set_socket_self
  refine ⟨world_inv_serve (by decide) h.world (.read hc hne), hready, hnodup, fun d => ?_,
    fun d left hd => ?_, fun d hd hno => ?_⟩
  · simp only [Server.goOn, Server.beginWrite]
    by_cases hdc : d = c
    · subst hdc
      rw [Function.update_self, hsock]
      exact List.rel_append (h.counted d) (.cons (Nat.zero_le _) .nil)
    · rw [Function.update_of_ne hdc, World.read, set_socket_ne hdc]
      exact h.counted d
  · cases hd
    refine ⟨hc, s.counts c, 0, (s.world.socket c).reads, (s.world.socket c).inbound.take 1024,
      Function.update_self .., ?_, (h.counted c).length_eq, Nat.zero_add _⟩
    simp only [Server.beginWrite, Server.goOn, hsock, Socket.read]
  · have hdc : d ≠ c := by
      rintro rfl
      exact hno (List.mem_append_right _ hc)
    simp only [Server.goOn, Server.beginWrite, World.read, set_socket_ne hdc]
    exact h.closed d hd hno

theorem write_counts {c left k n : ℕ} {ks : List ℕ} (hks : s.counts c = ks ++ [n]) :
    (s.write c left k).counts c = ks ++ [n + k] := by
  simp only [Server.write, Function.update_self, hks]
  exact List.modifyLast_concat _ n ks

theorem echo_inv_write (h : EchoInv s) {c left k : ℕ} (hin : s.writing = some (c, left))
    (hleft : k ≤ left) : EchoInv (s.write c left k) := by
  obtain ⟨hacc, ks, n, chunks, chunk, hks, hchunks, hlen, hsum⟩ := h.current c left hin
  have hnew := @write_counts s c left k n ks hks
  refine ⟨h.world, h.ready, h.nodup, fun d => ?_, fun d left' hd => ?_, h.closed⟩
  · by_cases hdc : d = c
    · subst hdc
      have hold := h.counted d
      rw [hks, hchunks] at hold
      rw [hnew]
      simp only [Server.write, hchunks]
      have hks := List.forall₂_take_append _ _ _ hold
      rw [List.take_left' hlen] at hks
      exact List.rel_append hks (.cons (by omega) .nil)
    · simp only [Server.write, Function.update_of_ne hdc]
      exact h.counted d
  · cases hd
    exact ⟨hacc, ks, n + k, chunks, chunk, hnew, hchunks, hlen, by omega⟩

theorem echo_inv_works (h : EchoInv s) (hs : Works s t) : EchoInv t := by
  cases hs with
  | wait hrun hout hidle hne hnodup hready hlen =>
    exact ⟨h.world, hready, hnodup, h.counted, h.current, h.closed⟩
  | accept hrun hout htodo hback =>
    rename_i rest c cs
    obtain ⟨hready, -, hnodup⟩ := rest_of_batch (v := s.world.accept c cs) h.ready h.nodup htodo
      fun y hy hr => by
        cases y with
        | listener => exact absurd rfl hy
        | conn d => exact accept_ready hr
    refine ⟨world_inv_serve (by decide) h.world (.accept hback), hready, hnodup, fun d => ?_,
      fun d left hd => ?_, fun d hd hno => ?_⟩
    · obtain ⟨b, hsock⟩ := accept_keeps s.world c cs d
      simp only [Server.goOn, hsock]
      exact h.counted d
    · exact absurd (hout.symm.trans hd) (Option.some_ne_none _).symm
    · obtain ⟨b, hsock⟩ := accept_keeps s.world c cs d
      simp only [Server.goOn, hsock]
      exact h.closed d hd fun hm => hno ((accept_perm hback).mem_iff.mpr hm)
  | read hrun hout htodo hne => exact echo_inv_read h htodo hne
  | write hrun hin hpos hleft hroom => exact echo_inv_write h hin hleft
  | written hrun hin =>
    exact ⟨h.world, h.ready, h.nodup, h.counted, by simp [Server.endWrite], h.closed⟩
  | close hrun hout htodo hnil hended =>
    rename_i c rest
    have hc := (h.ready (.conn c) (htodo ▸ List.mem_cons_self)).1
    obtain ⟨hready, -, hnodup⟩ := rest_of_batch (v := s.world.close c) h.ready h.nodup htodo
      fun y hy hr => close_ready hy hr
    refine ⟨world_inv_serve (by decide) h.world (.close hc), hready, hnodup, h.counted,
      fun d left hd => ?_, fun d hd hno => ?_⟩
    · exact absurd (hout.symm.trans hd) (Option.some_ne_none _).symm
    by_cases hdc : d = c
    · subst hdc
      exact ⟨hnil, hended⟩
    · refine h.closed d hd fun hm => hno ?_
      rcases List.mem_append.mp hm with hm | hm
      · exact List.mem_append_left _ hm
      · exact List.mem_append_right _ ((List.mem_erase_of_ne hdc).mpr hm)

theorem echo_inv_step (h : EchoInv s) (hs : Step s t) : EchoInv t := by
  cases hs with
  | client hc => exact echo_inv_client h hc
  | makeRoom hc => exact ⟨h.world, h.ready, h.nodup, h.counted, h.current, h.closed⟩
  | works hw => exact echo_inv_works h hw
  | fails hf =>
    cases hf with
    | cut hrun hin =>
      exact ⟨h.world, h.ready, h.nodup, h.counted, by simp [Server.endWrite], h.closed⟩
    | wait | accept | read | del | pipe =>
      exact ⟨h.world, h.ready, h.nodup, h.counted, h.current, h.closed⟩

theorem echo_inv_run {n : ℕ} (h : Run Step n start s) : EchoInv s := by
  have hkeep : ∀ s t, EchoInv s → Step s t → EchoInv t := fun _ _ => echo_inv_step
  exact run_invariant hkeep echo_inv_start h

end Invariant

section Echo

variable {s t u : Server} {n c : ℕ}

/-- The first parts of some pieces come in the order of the pieces, and are all of them only if
every part is the whole piece. -/
theorem parts_of_pieces {ks : List ℕ} {pieces : List (List UInt8)}
    (h : List.Forall₂ (fun k piece => k ≤ piece.length) ks pieces) :
    (List.zipWith List.take ks pieces).flatten.Sublist pieces.flatten ∧
      ((List.zipWith List.take ks pieces).flatten = pieces.flatten ↔
        ks = pieces.map List.length) := by
  induction h with
  | nil => exact ⟨List.Sublist.refl _, iff_of_true rfl rfl⟩
  | cons hk hrest ih =>
    rename_i k piece ks pieces
    obtain ⟨hsub, hiff⟩ := ih
    rw [List.zipWith_cons_cons, List.flatten_cons, List.flatten_cons, List.map_cons]
    refine ⟨(List.take_sublist k piece).append hsub, ?_, ?_⟩
    · intro heq
      have hlen := congrArg List.length heq
      have hle := hsub.length_le
      rw [List.length_append, List.length_append, List.length_take] at hlen
      obtain rfl : k = piece.length := by omega
      rw [List.take_length, List.append_cancel_left_eq] at heq
      rw [hiff.mp heq]
    · intro heq
      obtain ⟨rfl, hks⟩ := List.cons.inj heq
      rw [List.take_length, hiff.mpr hks]

/-- Whatever the clients do and in whatever order it is handled, a client gets back bytes that it
has sent itself, in their order and none of them twice, and it gets all those that the server
has read exactly if every write to it has taken all that it was given. -/
theorem echo_faithful (h : Run Step n start s) (c : ℕ) :
    (s.world.socket c).arrived = (s.world.socket c).taken ++ (s.world.socket c).inbound ∧
      (s.echoed c).Sublist (s.world.socket c).taken ∧
      (s.echoed c = (s.world.socket c).taken ↔
        s.counts c = (s.world.socket c).reads.map List.length) := by
  have hinv := echo_inv_run h
  obtain ⟨hsub, hiff⟩ := parts_of_pieces (hinv.counted c)
  exact ⟨hinv.world.flow c, hsub, hiff⟩

def greeted : Server :=
  start.withWorld (World.start.connect.setSocket 0 (Socket.fresh.arrive [104, 105]))

theorem greeted_run : Run Step 2 start greeted := by
  refine .tail (.tail (.refl start) (.client .connect)) (.client ?_)
  exact @Client.send World.start.connect 0 [104, 105] (by decide) ⟨rfl, rfl⟩ (List.cons_ne_nil _ _)

def answering : Server :=
  (greeted.goOn ((greeted.world.accept 0 []).read 0 1024) []).beginWrite 0 2

theorem answering_run : Run Works 4 greeted answering := by
  have hwait := Run.tail (.refl greeted) (Works.wait rfl rfl rfl
    (List.cons_ne_nil Source.listener []) (List.nodup_singleton _) (by decide) (by decide))
  have haccept := hwait.tail (@Works.accept _ _ 0 [] rfl rfl rfl rfl)
  have hwait := haccept.tail (.wait rfl rfl rfl (List.cons_ne_nil (Source.conn 0) [])
    (List.nodup_singleton _) (by decide) (by decide))
  exact hwait.tail (.read (c := 0) rfl rfl rfl (by decide))

theorem echo_faithful_sample : ∃ n s, Run Step n start s ∧ s.counts 0 = [1] ∧
    s.echoed 0 ≠ (s.world.socket 0).taken := by
  have hrun := run_append (fun _ _ => Step.works) greeted_run answering_run
  have hlast := (hrun.tail (.makeRoom (c := 0) (k := 1) (by decide))).tail
    (.works (.write (k := 1) rfl rfl Nat.one_pos (by decide) (by decide)))
  refine ⟨_, _, hlast, rfl, ?_⟩
  exact mt (echo_faithful hlast 0).2.2.mp (by decide)

/-- The call that an event leads to does not block, unless its client has reset the
connection. -/
theorem event_handled (hinv : EchoInv s) (hrun : s.running = true) (hout : s.writing = none)
    {x : Source} {rest : List Source} (htodo : s.todo = x :: rest)
    (hreset : ∀ c, (s.world.socket c).reset = false) : ∃ t, Works s t := by
  have hready := hinv.ready x (htodo ▸ List.mem_cons_self)
  cases x with
  | listener =>
    obtain ⟨c, cs, hback⟩ := List.exists_cons_of_ne_nil hready
    exact ⟨_, .accept hrun hout htodo hback⟩
  | conn c =>
    obtain ⟨-, hin | hended | hgone⟩ := hready
    · exact ⟨_, .read hrun hout htodo hin⟩
    · by_cases hnil : (s.world.socket c).inbound = []
      · exact ⟨_, .close hrun hout htodo hnil hended⟩
      · exact ⟨_, .read hrun hout htodo hnil⟩
    · rw [hreset c] at hgone
      cases hgone

/-- The server blocks in a write that its client has no room for, or in epoll_wait with nothing
to do. -/
theorem stuck_cases (hinv : EchoInv s) (hrun : s.running = true)
    (hreset : ∀ c, (s.world.socket c).reset = false) (hstuck : Stuck Works s) :
    (∃ c left, s.writing = some (c, left) ∧ 0 < left ∧ s.room c = 0) ∨
      (s.writing = none ∧ s.world.work = 0) := by
  cases hwriting : s.writing with
  | some write =>
    obtain ⟨c, left⟩ := write
    have hleft : left ≠ 0 := by
      rintro rfl
      exact hstuck _ (.written hrun hwriting)
    refine Or.inl ⟨c, left, rfl, Nat.pos_of_ne_zero hleft, ?_⟩
    by_contra hroom
    exact hstuck _ (.write hrun hwriting Nat.one_pos (by omega) (by omega))
  | none =>
    refine Or.inr ⟨rfl, ?_⟩
    by_contra hwork
    cases htodo : s.todo with
    | nil =>
      obtain ⟨x, hx⟩ := ready_of_work hwork
      have hone : ∀ y ∈ [x], s.world.Ready y := fun y hy => List.mem_singleton.mp hy ▸ hx
      exact hstuck _ (.wait hrun hwriting htodo (List.cons_ne_nil x []) (List.nodup_singleton x)
        hone (by simp))
    | cons x rest =>
      obtain ⟨t, ht⟩ := event_handled hinv hrun hwriting htodo hreset
      exact hstuck t ht

theorem works_keeps (hs : Works s t) :
    t.running = true ∧ t.world.connected = s.world.connected ∧
      ∀ c, (t.world.socket c).arrived = (s.world.socket c).arrived ∧
        (t.world.socket c).ended = (s.world.socket c).ended ∧
        (t.world.socket c).reset = (s.world.socket c).reset := by
  cases hs with
  | accept hrun hout htodo hback =>
    rename_i rest d cs
    refine ⟨hrun, rfl, fun c => ?_⟩
    obtain ⟨b, hsock⟩ := accept_keeps s.world d cs c
    simp only [Server.goOn, hsock]
    exact ⟨trivial, trivial, trivial⟩
  | read hrun => exact ⟨hrun, rfl, read_keeps _ _ _⟩
  | wait hrun | write hrun | written hrun | close hrun =>
    exact ⟨hrun, rfl, fun c => ⟨rfl, rfl, rfl⟩⟩

theorem echoed_last {ks : List ℕ} {k : ℕ} {chunks : List (List UInt8)} {chunk : List UInt8}
    (hks : s.counts c = ks ++ [k]) (hchunks : (s.world.socket c).reads = chunks ++ [chunk])
    (hlen : ks.length = chunks.length) (hk : k ≤ chunk.length) :
    (s.echoed c).length = (List.zipWith List.take ks chunks).flatten.length + k := by
  rw [Server.echoed, hks, hchunks, List.zipWith_append hlen]
  simp only [List.zipWith_cons_cons, List.zipWith_nil_left, List.flatten_append,
    List.flatten_singleton, List.length_append, List.length_take]
  omega

structure Flow (s t : Server) (c : ℕ) : Prop where
  room : (t.echoed c).length + t.room c = (s.echoed c).length + s.room c
  taken : (t.world.socket c).taken.length + ((s.echoed c).length + s.pending c) =
    (s.world.socket c).taken.length + ((t.echoed c).length + t.pending c)

theorem flow_read (hinv : EchoInv s) {rest : List Source} (hout : s.writing = none) (d : ℕ) :
    Flow s ((s.goOn (s.world.read c 1024) rest).beginWrite c
      ((s.world.socket c).inbound.take 1024).length) d := by
  by_cases hdc : d = c
  · subst hdc
    have hsock : (s.world.read d 1024).socket d = (s.world.socket d).read 1024 := set_socket_self
    have hechoed := @echoed_last ((s.goOn (s.world.read d 1024) rest).beginWrite d
      ((s.world.socket d).inbound.take 1024).length) d (s.counts d) 0 (s.world.socket d).reads
      ((s.world.socket d).inbound.take 1024) (Function.update_self ..)
      (by simp only [Server.beginWrite, Server.goOn, hsock, Socket.read])
      (hinv.counted d).length_eq (Nat.zero_le _)
    rw [Nat.add_zero, ← Server.echoed] at hechoed
    constructor
    · rw [hechoed]
      rfl
    · rw [hechoed]
      simp only [Server.beginWrite, Server.goOn, hsock, Socket.read, Socket.taken, Server.pending,
        hout, if_true, List.flatten_append, List.flatten_singleton, List.length_append]
      omega
  · have hcd : c ≠ d := Ne.symm hdc
    have hechoed : ((s.goOn (s.world.read c 1024) rest).beginWrite c
        ((s.world.socket c).inbound.take 1024).length).echoed d = s.echoed d := by
      simp only [Server.echoed, Server.beginWrite, Server.goOn, World.read, set_socket_ne hdc,
        Function.update_of_ne hdc]
    constructor
    · rw [hechoed]
      rfl
    · rw [hechoed]
      simp only [Server.beginWrite, Server.goOn, World.read, set_socket_ne hdc, Server.pending,
        hout, if_neg hcd]

theorem flow_write (hinv : EchoInv s) {left k : ℕ} (hin : s.writing = some (c, left))
    (hleft : k ≤ left) (hroom : k ≤ s.room c) (d : ℕ) : Flow s (s.write c left k) d := by
  by_cases hdc : d = c
  · subst hdc
    obtain ⟨-, ks, n, chunks, chunk, hks, hchunks, hlen, hsum⟩ := hinv.current d left hin
    have hbefore := echoed_last hks hchunks hlen (by omega)
    have hafter := @echoed_last (s.write d left k) d ks (n + k) chunks chunk (write_counts hks)
      hchunks hlen (by omega)
    constructor
    · simp only [Server.write, Function.update_self] at hafter ⊢
      omega
    · simp only [Server.write, Server.pending, hin, if_true] at hafter ⊢
      omega
  · have hcd : c ≠ d := Ne.symm hdc
    have hechoed : (s.write c left k).echoed d = s.echoed d := by
      simp only [Server.echoed, Server.write, Function.update_of_ne hdc]
    constructor
    · rw [hechoed]
      simp only [Server.write, Function.update_of_ne hdc]
    · rw [hechoed]
      simp only [Server.write, Server.pending, hin, if_neg hcd]

theorem flow_works (hinv : EchoInv s) (hs : Works s t) (d : ℕ) : Flow s t d := by
  cases hs with
  | wait => exact ⟨rfl, rfl⟩
  | close => exact ⟨rfl, rfl⟩
  | accept hrun hout htodo hback =>
    rename_i rest c cs
    obtain ⟨b, hsock⟩ := accept_keeps s.world c cs d
    constructor <;> simp only [Server.echoed, Server.goOn, Server.pending, hsock, Socket.taken]
  | read hrun hout htodo hne => exact flow_read hinv hout d
  | write hrun hin hpos hleft hroom => exact flow_write hinv hin hleft hroom d
  | written hrun hin =>
    refine ⟨rfl, ?_⟩
    have hpending : s.pending d = 0 := by simp [Server.pending, hin]
    rw [hpending]
    rfl

/-- Four times what is to be done, what is still to be written, and one more in front of an
epoll_wait. -/
def turnsLeft (s : Server) : ℕ :=
  4 * s.world.work + (s.writing.elim 0 fun w => w.2 + 1) + (1 - s.todo.length)

theorem works_less (hinv : EchoInv s) (hs : Works s t) : turnsLeft t < turnsLeft s := by
  cases hs with
  | wait hrun hout hidle hne hnodup hready hlen =>
    have hpos := List.length_pos_iff.mpr hne
    simp only [turnsLeft, Server.goOn, hidle, List.length_nil]
    omega
  | accept hrun hout htodo hback =>
    rename_i rest c cs
    have hwork := work_accept hinv.world.distinct hback
    simp only [turnsLeft, Server.goOn]
    omega
  | read hrun hout htodo hne =>
    rename_i c rest
    have hc := (hinv.ready (.conn c) (htodo ▸ List.mem_cons_self)).1
    have hwork := read_work 1024 hinv.world.distinct hc
    have hpos := List.length_pos_iff.mpr hne
    rw [List.length_take] at hwork
    simp only [turnsLeft, Server.goOn, Server.beginWrite, hout, Option.elim, List.length_take]
    omega
  | write hrun hin hpos hleft hroom =>
    simp only [turnsLeft, Server.write, hin, Option.elim]
    omega
  | written hrun hin =>
    simp only [turnsLeft, Server.endWrite, hin, Option.elim]
    omega
  | close hrun hout htodo hnil hended =>
    rename_i c rest
    have hc := (hinv.ready (.conn c) (htodo ▸ List.mem_cons_self)).1
    have hwork := work_close hc
    have hsock : (s.world.socket c).work ≠ 0 := fun h0 =>
      work_eq_zero_iff.mp h0 (Or.inr (Or.inl hended))
    simp only [turnsLeft, Server.goOn]
    omega

structure Working (s u : Server) : Prop where
  inv : EchoInv u
  running : u.running = true
  connected : u.world.connected = s.world.connected
  clients : ∀ c, (u.world.socket c).arrived = (s.world.socket c).arrived ∧
    (u.world.socket c).ended = (s.world.socket c).ended ∧
    (u.world.socket c).reset = (s.world.socket c).reset
  room : ∀ c, (u.echoed c).length + u.room c = (s.echoed c).length + s.room c
  lossless : ∀ c, s.Lossless c → u.Lossless c

theorem working_step (h : Working s t) (hs : Works t u) : Working s u := by
  obtain ⟨hrun, hconn, hclients⟩ := works_keeps hs
  have hflow := flow_works h.inv hs
  refine ⟨echo_inv_works h.inv hs, hrun, hconn.trans h.connected, fun c => ?_, fun c => ?_,
    fun c hc => ?_⟩
  · obtain ⟨harr, hend, hres⟩ := hclients c
    obtain ⟨harr', hend', hres'⟩ := h.clients c
    exact ⟨harr.trans harr', hend.trans hend', hres.trans hres'⟩
  · exact (hflow c).room.trans (h.room c)
  · have hlossless : (t.echoed c).length + t.pending c = (t.world.socket c).taken.length :=
      h.lossless c hc
    have := (hflow c).taken
    rw [Server.Lossless]
    omega

theorem writing_echoed (hinv : EchoInv s) {left : ℕ} (hin : s.writing = some (c, left))
    (hleft : 0 < left) : (s.echoed c).length < (s.world.socket c).taken.length := by
  obtain ⟨-, ks, k, chunks, chunk, hks, hchunks, hlen, hsum⟩ := hinv.current c left hin
  have hcounted := hinv.counted c
  rw [hks, hchunks] at hcounted
  have hbefore := List.forall₂_take_append _ _ _ hcounted
  rw [List.take_left' hlen] at hbefore
  have hle := (parts_of_pieces hbefore).1.length_le
  rw [echoed_last hks hchunks hlen (by omega), Socket.taken, hchunks]
  simp only [List.flatten_append, List.flatten_singleton, List.length_append]
  omega

/-- Where the server blocks for good: in the write to a client that has got all it has made room
for, or in epoll_wait with everything read and answered. -/
def Blocked (s u : Server) : Prop :=
  (∃ c left, u.writing = some (c, left) ∧ u.room c = 0 ∧
    (u.echoed c).length = (s.echoed c).length + s.room c ∧
    (u.echoed c).length < (s.world.socket c).arrived.length) ∨
  (u.writing = none ∧ u.world.backlog = [] ∧ ∀ c < s.world.connected,
    (u.world.socket c).taken = (s.world.socket c).arrived ∧
    (c ∈ u.world.accepted ↔ (s.world.socket c).ended = false) ∧
    (s.Lossless c → u.echoed c = (s.world.socket c).arrived))

/-- With nothing to do, all that has been sent has been read, and those who have closed have
been closed. -/
theorem all_taken (h : Working s u) (hwork : u.world.work = 0) (hc : c < s.world.connected) :
    (u.world.socket c).taken = (s.world.socket c).arrived ∧
      (c ∈ u.world.accepted ↔ (s.world.socket c).ended = false) := by
  obtain ⟨hback, hacc⟩ := work_zero hwork
  obtain ⟨harr, hend, -⟩ := h.clients c
  have hflow := h.inv.world.flow c
  by_cases hopen : c ∈ u.world.accepted
  · have hidle := hacc c hopen
    rw [Socket.Ready, not_or, not_or, not_not] at hidle
    rw [hidle.1, List.append_nil, harr] at hflow
    rw [← hend]
    exact ⟨hflow.symm, iff_of_true hopen (Bool.eq_false_iff.mpr hidle.2.1)⟩
  · have hno : c ∉ u.world.backlog ++ u.world.accepted := by
      rw [hback]
      exact hopen
    obtain ⟨hnil, hended⟩ := h.inv.closed c (h.connected ▸ hc) hno
    rw [hnil, List.append_nil, harr] at hflow
    rw [← hend, hended]
    exact ⟨hflow.symm, iff_of_false hopen Bool.false_ne_true.symm⟩

theorem blocked_of_stuck (h : Working s u) (hreset : ∀ c, (s.world.socket c).reset = false)
    (hstuck : Stuck Works u) : Blocked s u := by
  have hreset : ∀ c, (u.world.socket c).reset = false :=
    fun c => (h.clients c).2.2.trans (hreset c)
  rcases stuck_cases h.inv h.running hreset hstuck with ⟨c, left, hin, hleft, hroom⟩ | ⟨hout, hwork⟩
  · have hgot := h.room c
    have hless := writing_echoed h.inv hin hleft
    have hflow := congrArg List.length (h.inv.world.flow c)
    rw [(h.clients c).1, List.length_append] at hflow
    exact Or.inl ⟨c, left, hin, hroom, by omega, by omega⟩
  · refine Or.inr ⟨hout, (work_zero hwork).1, fun c hc => ?_⟩
    obtain ⟨htaken, hopen⟩ := all_taken h hwork hc
    refine ⟨htaken, hopen, fun hlossless => ?_⟩
    have hlen : (u.echoed c).length + u.pending c = (u.world.socket c).taken.length :=
      h.lossless c hlossless
    have hpending : u.pending c = 0 := by simp [Server.pending, hout]
    rw [hpending, Nat.add_zero] at hlen
    rw [← htaken]
    exact (parts_of_pieces (h.inv.counted c)).1.eq_of_length hlen

/-- Once the clients, none of which has reset its connection, do nothing more, the server works
for a bounded number of turns until it blocks. -/
theorem echo_drains (h : Run Step n start s) (hrun : s.running = true)
    (hreset : ∀ c, (s.world.socket c).reset = false) :
    (∀ m u, Run Works m s u → m ≤ turnsLeft s) ∧
      ∀ m u, Run Works m s u → Stuck Works u → Blocked s u := by
  have hstart : Working s s :=
    ⟨echo_inv_run h, hrun, rfl, fun c => ⟨rfl, rfl, rfl⟩, fun c => rfl, fun c => id⟩
  have hkeep : ∀ t u, Working s t → Works t u → Working s u := fun _ _ => working_step
  have hless : ∀ t u, Working s t → Works t u → turnsLeft u < turnsLeft t :=
    fun _ _ ht hs => works_less ht.inv hs
  constructor
  · intro m u hm
    have := run_bounded hkeep hless hstart hm
    omega
  · exact fun m u hm hstuck => blocked_of_stuck (run_invariant hkeep hstart hm) hreset hstuck

/-- Without room the server blocks in its first write. -/
theorem echo_drains_sample : (¬ ∃ u, Run Works 14 greeted u) ∧ Blocked greeted answering := by
  have hreset : ∀ c, (greeted.world.socket c).reset = false := by
    intro c
    by_cases hc : c = 0
    · subst hc
      rfl
    · rw [greeted, Server.withWorld, set_socket_ne hc]
      rfl
  obtain ⟨hbound, hblocked⟩ := echo_drains greeted_run rfl hreset
  refine ⟨?_, hblocked 4 answering answering_run fun t ht => ?_⟩
  · rintro ⟨u, hrun⟩
    have hle : 14 ≤ 13 := hbound 14 u hrun
    exact absurd hle (by decide)
  · cases ht with
    | write hrun hin hpos hleft hroom =>
      cases hin
      exact absurd hroom (Nat.not_le.mpr hpos)
    | written hrun hin => cases hin
    | wait hrun hout => cases hout
    | accept hrun hout => cases hout
    | read hrun hout => cases hout
    | close hrun hout => cases hout

end Echo

end EchoServer
