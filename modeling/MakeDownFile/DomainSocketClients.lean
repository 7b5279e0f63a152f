import MakeDownFile.EpollSockets
import MakeDownFile.StreamEnds

/-! # The domain-socket server and its clients

epoll_listen on a listening socket, and any number of the client programs of the same file. The
server takes what one recv gets of a connection and closes it without an answer; a client sends a
word and waits for 1024 bytes. -/
namespace DomainSocketClients

open EpollSockets
open StepRelations
open StreamEnds
open StreamTransfer
open TextBuffers

/-- The server with the events still to be handled and the connection that do_use_fd has been
called for, and for each client where its main is and what has been typed. -/
structure System where
  world : World
  todo : List Source
  inUse : Option ℕ
  running : Bool
  main : ℕ → Phase
  words : ℕ → List (List UInt8)

namespace System

variable (s : System)

def start : System := ⟨World.start, [], none, true, fun _ => .ended, fun _ => []⟩

def goOn (w : World) (todo : List Source) (fd : Option ℕ) : System :=
  { s with world := w, todo := todo, inUse := fd }

def move (c : ℕ) (p : Phase) : System := { s with main := Function.update s.main c p }

def type (c : ℕ) (word : List UInt8) : System :=
  { s with words := Function.update s.words c (s.words c ++ [word]) }

def Gone (c : ℕ) : Prop := s.running = false ∨ c ∉ s.world.backlog ++ s.world.accepted

end System

/-- The loop of epoll_listen. do_use_fd calls recv once, and whatever comes of that, the
connection is removed and closed. -/
inductive Serves : System → System → Prop where
  | wait {s batch} (hrun : s.running = true) (hout : s.inUse = none) (hidle : s.todo = [])
      (hnodup : batch.Nodup) (hready : ∀ x ∈ batch, s.world.Ready x) (hlen : batch.length ≤ 20) :
      Serves s (s.goOn s.world batch none)
  | accept {s rest c cs} (hrun : s.running = true) (hout : s.inUse = none)
      (htodo : s.todo = .listener :: rest) (hback : s.world.backlog = c :: cs) :
      Serves s (s.goOn (s.world.accept c cs) rest none)
  | fails {s rest} (hrun : s.running = true) (hout : s.inUse = none)
      (htodo : s.todo = .listener :: rest) : Serves s { s with running := false }
  | recv {s c rest} (hrun : s.running = true) (hout : s.inUse = none)
      (htodo : s.todo = .conn c :: rest) (hne : (s.world.socket c).inbound ≠ []) :
      Serves s (s.goOn (s.world.read c 1024) rest (some c))
  | recvFails {s c rest} (hrun : s.running = true) (hout : s.inUse = none)
      (htodo : s.todo = .conn c :: rest) : Serves s (s.goOn s.world rest (some c))
  | close {s c} (hrun : s.running = true) (hin : s.inUse = some c) :
      Serves s (s.goOn (s.world.close c) s.todo none)

/-- A client connects and goes through its loop. Sending to a server that is gone ends it, by
SIGPIPE or by the break; a recv then gets 0, or an error where the server has left bytes unread. -/
inductive Talks : System → System → Prop where
  | connect {s} (hrun : s.running = true) :
      Talks s ((s.goOn s.world.connect s.todo s.inUse).move s.world.connected .prompt)
  | scanf {s c word} (hmain : s.main c = .prompt) (hfits : word.length < 1024) :
      Talks s ((s.type c word).move c (.sending (message word)))
  | send {s c call k} (hmain : s.main c = .sending call) (hrun : call.returned = none)
      (hpos : 0 < k) (hle : k ≤ call.asked.length) (hopen : ¬ s.Gone c) :
      Talks s ((s.goOn (s.world.setSocket c ((s.world.socket c).arrive (call.asked.take k))) s.todo
        s.inUse).move c (.sending (call.turn (k : ℕ))))
  | pipe {s c call} (hmain : s.main c = .sending call) (hrun : call.returned = none)
      (hgone : s.Gone c) : Talks s (s.move c .ended)
  | sent {s c call r} (hmain : s.main c = .sending call) (hret : call.returned = some r) :
      Talks s (s.move c (if r < 0 then .ended else .receiving (recvData call.buf 1024)))
  | recvEnd {s c call} (hmain : s.main c = .receiving call) (hrun : call.returned = none)
      (hgone : s.Gone c) (hnil : (s.world.socket c).inbound = []) :
      Talks s (s.move c (.receiving (call.turn (0 : ℕ) [])))
  | recvReset {s c call} (hmain : s.main c = .receiving call) (hrun : call.returned = none)
      (hgone : s.Gone c) (hne : (s.world.socket c).inbound ≠ []) :
      Talks s (s.move c (.receiving (call.turn (-1) [])))
  | received {s c call r} (hmain : s.main c = .receiving call) (hret : call.returned = some r) :
      Talks s (s.move c (if r < 0 then .ended else .prompt))

inductive Step : System → System → Prop where
  | server {s t} (h : Serves s t) : Step s t
  | client {s t} (h : Talks s t) : Step s t

/-- Where a client can be, with what it has typed and what of that has reached the server. -/
def PhaseOk (words : List (List UInt8)) (arrived : List UInt8) : Phase → Prop
  | .prompt => words = [] ∧ arrived = []
  | .sending c => ∃ word, words = [word] ∧ c.buf = typed word ∧
      c.len = (text (typed word)).length ∧ c.sendLen ≤ c.len ∧ c.failed = false ∧
      arrived = c.accepted
  | .receiving c => ∃ word, words = [word] ∧ arrived = text (typed word) ∧ c.len = 1024 ∧
      c.recvLen = 0
  | .ended => words = [] ∧ arrived = [] ∨ ∃ word, words = [word] ∧ arrived <+: text (typed word)

structure DialogInv (s : System) : Prop where
  world : WorldInv 1024 s.world
  alive : ∀ c, (s.world.socket c).Alive
  phase : ∀ c, PhaseOk (s.words c) (s.world.socket c).arrived (s.main c)
  unread : ∀ c ∈ s.world.accepted, s.inUse ≠ some c → (s.world.socket c).reads = []
  once : ∀ c, (s.world.socket c).reads.length ≤ 1
  used : ∀ c, s.inUse = some c → c ∈ s.world.accepted ∧ Source.conn c ∉ s.todo
  ready : ∀ x ∈ s.todo, s.world.Ready x
  nodup : s.todo.Nodup
  absent : ∀ c, s.world.connected ≤ c → s.main c = .ended ∧ s.words c = []

section Sending

variable {word : List UInt8} {c : SendData}

theorem text_begin (bs : List UInt8) : text bs <+: bs := List.takeWhile_prefix _

theorem take_text (bs : List UInt8) : bs.take (text bs).length = text bs :=
  (List.prefix_iff_eq_take.mp (text_begin bs)).symm

theorem accepted_all_sent (hbuf : c.buf = typed word) (hlen : c.len = (text (typed word)).length)
    (hle : c.sendLen ≤ c.len) : c.accepted <+: text (typed word) := by
  rw [SendData.accepted, hbuf, ← take_text, ← hlen]
  exact List.take_prefix_take_left hle

end Sending

section Invariant

variable {s t : System} {c : ℕ}

theorem dialog_inv_start : DialogInv System.start := by
  refine ⟨world_inv_start, fun c => ⟨rfl, rfl⟩, fun c => Or.inl ⟨rfl, rfl⟩, ?_, ?_, nofun, ?_, ?_,
    fun c _ => ⟨rfl, rfl⟩⟩
  · simp [System.start, World.start]
  · simp [System.start, World.start, Socket.fresh]
  · simp [System.start]
  · simp [System.start]

theorem idle_ne {fd : Option ℕ} (hout : fd = none) (c : ℕ) : fd ≠ some c := by
  rw [hout]
  exact (Option.some_ne_none c).symm

theorem dialog_inv_serves (h : DialogInv s) (hs : Serves s t) : DialogInv t := by
  cases hs with
  | wait hrun hout hidle hnodup hready hlen =>
    exact ⟨h.world, h.alive, h.phase, fun c hc _ => h.unread c hc (idle_ne hout c), h.once,
      fun d hd => absurd hd (idle_ne rfl d), hready, hnodup, h.absent⟩
  | accept hrun hout htodo hback =>
    rename_i rest c cs
    obtain ⟨hready, -, hnodup⟩ := rest_of_batch (v := s.world.accept c cs) h.ready h.nodup htodo
      fun y hy hr => by
        cases y with
        | listener => exact absurd rfl hy
        | conn d => exact accept_ready hr
    have hkeeps := accept_keeps s.world c cs
    refine ⟨world_inv_serve (by decide) h.world (.accept hback), fun d => ?_, fun d => ?_,
      fun d hd _ => ?_, fun d => ?_, fun d hd => absurd hd (idle_ne rfl d), hready, hnodup,
      h.absent⟩
    · obtain ⟨b, hsock⟩ := hkeeps d
      simp only [System.goOn, hsock]
      exact h.alive d
    · obtain ⟨b, hsock⟩ := hkeeps d
      simp only [System.goOn, hsock]
      exact h.phase d
    · obtain ⟨b, hsock⟩ := hkeeps d
      simp only [System.goOn, hsock]
      rcases List.mem_cons.mp hd with rfl | hd
      · exact h.world.unread d (by rw [hback]; exact List.mem_cons_self)
      · exact h.unread d hd (idle_ne hout d)
    · obtain ⟨b, hsock⟩ := hkeeps d
      simp only [System.goOn, hsock]
      exact h.once d
  | fails hrun hout htodo =>
    exact ⟨h.world, h.alive, h.phase, h.unread, h.once, h.used, h.ready, h.nodup, h.absent⟩
  | recv hrun hout htodo hne =>
    rename_i c rest
    have hc := (h.ready (.conn c) (htodo ▸ List.mem_cons_self)).1
    obtain ⟨hready, hx, hnodup⟩ := rest_of_batch (v := s.world.read c 1024) h.ready h.nodup htodo
      fun y hy hr => read_ready hy hr
    have hkeeps := read_keeps s.world c 1024
    refine ⟨world_inv_serve (by decide) h.world (.read hc hne), fun d => ?_, fun d => ?_,
      fun d hd hnot => ?_, ?_, fun d hd => ?_, hready, hnodup, h.absent⟩
    · obtain ⟨-, hend, hres⟩ := hkeeps d
      exact ⟨hend.trans (h.alive d).1, hres.trans (h.alive d).2⟩
    · have hphase := h.phase d
      rwa [← (hkeeps d).1] at hphase
    · have hdc : d ≠ c := fun he => hnot (congrArg some he.symm)
      have hsock : (s.world.read c 1024).socket d = s.world.socket d := set_socket_ne hdc
      rw [System.goOn, hsock]
      exact h.unread d hd (idle_ne hout d)
    · refine forall_set_socket (P := fun _ t => t.reads.length ≤ 1) h.once ?_
      rw [Socket.read, h.unread c hc (idle_ne hout c)]
      exact Nat.le_refl 1
    · obtain rfl := Option.some.inj hd
      exact ⟨hc, hx⟩
  | recvFails hrun hout htodo =>
    rename_i c rest
    have hc := (h.ready (.conn c) (htodo ▸ List.mem_cons_self)).1
    obtain ⟨hready, hx, hnodup⟩ := rest_of_batch h.ready h.nodup htodo fun y hy hr => hr
    refine ⟨h.world, h.alive, h.phase, fun d hd _ => h.unread d hd (idle_ne hout d), h.once,
      fun d hd => ?_, hready, hnodup, h.absent⟩
    obtain rfl := Option.some.inj hd
    exact ⟨hc, hx⟩
  | close hrun hin =>
    rename_i c
    obtain ⟨hc, hx⟩ := h.used c hin
    refine ⟨world_inv_serve (by decide) h.world (.close hc), h.alive, h.phase, fun d hd _ => ?_,
      h.once, fun d hd => absurd hd (idle_ne rfl d),
      fun y hy => close_ready (fun he => hx (he ▸ hy)) (h.ready y hy), h.nodup, h.absent⟩
    have hacc := (List.nodup_append.mp h.world.distinct).2.1
    obtain ⟨hdc, hold⟩ := hacc.mem_erase_iff.mp hd
    refine h.unread d hold ?_
    rw [hin]
    exact fun he => hdc (Option.some.inj he).symm

theorem dialog_inv_move {p : Phase} {words : List (List UInt8)} (h : DialogInv s)
    (hc : c < s.world.connected) (hp : PhaseOk words (s.world.socket c).arrived p) :
    DialogInv { s with
      main := Function.update s.main c p, words := Function.update s.words c words } := by
  refine ⟨h.world, h.alive, fun d => ?_, h.unread, h.once, h.used, h.ready, h.nodup, fun d hd => ?_⟩
  · by_cases hdc : d = c
    · subst hdc
      simpa only [Function.update_self] using hp
    · simpa only [Function.update_of_ne hdc] using h.phase d
  · have hdc : d ≠ c := fun he => absurd hc (Nat.not_lt.mpr (he ▸ hd))
    simpa only [Function.update_of_ne hdc] using h.absent d hd

theorem connected_of_main (h : DialogInv s) (hmain : s.main c ≠ .ended) :
    c < s.world.connected := by
  by_contra hle
  exact hmain (h.absent c (Nat.le_of_not_lt hle)).1

theorem dialog_inv_main {p : Phase} (h : DialogInv s) (hmain : s.main c ≠ .ended)
    (hp : PhaseOk (s.words c) (s.world.socket c).arrived (s.main c) →
      PhaseOk (s.words c) (s.world.socket c).arrived p) : DialogInv (s.move c p) := by
  have hmove := dialog_inv_move h (connected_of_main h hmain) (hp (h.phase c))
  rwa [Function.update_eq_self] at hmove

theorem sent_phase {words : List (List UInt8)} {arrived : List UInt8} {call : SendData} {r : ℤ}
    (h : PhaseOk words arrived (.sending call)) (hret : call.returned = some r) :
    PhaseOk words arrived (if r < 0 then .ended else .receiving (recvData call.buf 1024)) := by
  obtain ⟨word, hword, hbuf, hlen, hle, hok, harr⟩ := h
  have hdone : call.sendLen = call.len ∧ ¬ r < 0 := by
    rw [SendData.returned, hok] at hret
    simp only [Bool.false_eq_true, if_false] at hret
    split at hret
    · cases hret
    · obtain rfl := Option.some.inj hret
      omega
  rw [if_neg hdone.2]
  refine ⟨word, hword, ?_, rfl, rfl⟩
  rw [harr, SendData.accepted, hdone.1, hlen, hbuf, take_text]

theorem end_phase {words : List (List UInt8)} {arrived : List UInt8} {p : Phase}
    (h : PhaseOk words arrived p) : PhaseOk words arrived .ended := by
  cases p with
  | prompt => exact Or.inl h
  | sending call =>
    obtain ⟨word, hword, hbuf, hlen, hle, -, harr⟩ := h
    exact Or.inr ⟨word, hword, harr ▸ accepted_all_sent hbuf hlen hle⟩
  | receiving call =>
    obtain ⟨word, hword, harr, -⟩ := h
    exact Or.inr ⟨word, hword, harr ▸ List.prefix_refl _⟩
  | ended => exact h

/-- Nothing ever comes from the server, so only an error ends the wait for it. -/
theorem received_phase {words : List (List UInt8)} {arrived : List UInt8} {call : RecvData} {r : ℤ}
    (h : PhaseOk words arrived (.receiving call)) (hret : call.returned = some r) : r < 0 := by
  obtain ⟨-, -, -, hlen, hrecv⟩ := h
  by_contra hr
  obtain ⟨-, hle⟩ := recv_done hret hr
  omega

theorem dialog_inv_talks (h : DialogInv s) (hs : Talks s t) : DialogInv t := by
  cases hs with
  | connect hrun =>
    have hclient : Client s.world s.world.connect := .connect
    have hfresh : s.world.socket s.world.connected = Socket.fresh :=
      h.world.unused _ (Nat.le_refl _)
    refine ⟨world_inv_client h.world hclient, h.alive, fun d => ?_, h.unread, h.once, h.used,
      fun x hx => client_ready hclient (h.ready x hx), h.nodup, fun d hd => ?_⟩
    · by_cases hd : d = s.world.connected
      · subst hd
        have hwords := (h.absent _ (Nat.le_refl _)).2
        simp only [System.move, System.goOn, Function.update_self, World.connect, hwords, hfresh]
        exact ⟨rfl, rfl⟩
      · simp only [System.move, System.goOn, Function.update_of_ne hd]
        exact h.phase d
    · have hlt : s.world.connected < d := hd
      have hne : d ≠ s.world.connected := Nat.ne_of_gt hlt
      simp only [System.move, System.goOn, Function.update_of_ne hne]
      exact h.absent d (Nat.le_of_lt hlt)
  | scanf hmain hfits =>
    rename_i c word
    have hphase := h.phase c
    rw [hmain] at hphase
    obtain ⟨hwords, harr⟩ := hphase
    refine dialog_inv_move h (connected_of_main h (by simp [hmain])) ?_
    rw [hwords, harr]
    exact ⟨word, rfl, rfl, rfl, Nat.zero_le _, rfl, rfl⟩
  | send hmain hrun hpos hle hopen =>
    rename_i c call k
    have hc : c < s.world.connected := connected_of_main h (by simp [hmain])
    have hphase := h.phase c
    rw [hmain] at hphase
    obtain ⟨word, hword, hbuf, hlen, hsent, hok, harr⟩ := hphase
    have hne : call.asked.take k ≠ [] := fun hnil => by
      have := congrArg List.length hnil
      rw [List.length_take, List.length_nil] at this
      omega
    have hclient := Client.send hc (h.alive c) hne
    have hasked := asked_le call
    refine ⟨world_inv_client h.world hclient, ?_, fun d => ?_, ?_, ?_, h.used,
      fun x hx => client_ready hclient (h.ready x hx), h.nodup, fun d hd => ?_⟩
    · exact forall_set_socket (P := fun _ t => t.Alive) h.alive (h.alive c)
    · by_cases hdc : d = c
      · subst hdc
        simp only [System.move, System.goOn, Function.update_self, set_socket_self]
        refine ⟨word, hword, hbuf, hlen, ?_, hok, ?_⟩
        · rw [send_turn_eq]
          simp only
          omega
        · rw [send_turn_accepted hle, Socket.arrive, harr]
      · simp only [System.move, System.goOn, Function.update_of_ne hdc, set_socket_ne hdc]
        exact h.phase d
    · intro d hd hnot
      exact (client_reads hclient d).trans (h.unread d hd hnot)
    · exact fun d => (congrArg List.length (client_reads hclient d)).trans_le (h.once d)
    · have hdc : d ≠ c := fun he => absurd hc (Nat.not_lt.mpr (he ▸ hd))
      simp only [System.move, System.goOn, Function.update_of_ne hdc]
      exact h.absent d hd
  | pipe hmain hrun hgone =>
    exact dialog_inv_main h (by simp [hmain]) end_phase
  | sent hmain hret =>
    apply dialog_inv_main h (by simp [hmain])
    rw [hmain]
    exact fun hphase => sent_phase hphase hret
  | recvEnd hmain hrun hgone hnil =>
    apply dialog_inv_main h (by simp [hmain])
    rw [hmain, recv_turn_eq]
    exact id
  | recvReset hmain hrun hgone hne =>
    apply dialog_inv_main h (by simp [hmain])
    rw [hmain, recv_turn_error (by decide)]
    exact id
  | received hmain hret =>
    apply dialog_inv_main h (by simp [hmain])
    rw [hmain]
    intro hphase
    rw [if_pos (received_phase hphase hret)]
    exact end_phase hphase

theorem dialog_inv_step (h : DialogInv s) (hs : Step s t) : DialogInv t := by
  cases hs with
  | server hs => exact dialog_inv_serves h hs
  | client hs => exact dialog_inv_talks h hs

theorem dialog_inv_run {n : ℕ} (h : Run Step n System.start s) : DialogInv s := by
  have hkeep : ∀ s t, DialogInv s → Step s t → DialogInv t := fun _ _ => dialog_inv_step
  exact run_invariant hkeep dialog_inv_start h

end Invariant

section Results

variable {s t u : System} {n m c : ℕ}

/-- However the calls interleave, no client sends more than one word, or gets a byte or back to
its prompt behind it. The server reads once from each connection, and what it reads is the
beginning of the word. -/
theorem one_word_each (h : Run Step n System.start s) (c : ℕ) :
    (s.words c).length ≤ 1 ∧ (s.main c = .prompt → s.words c = []) ∧
      (∀ call, s.main c = .receiving call → call.recvLen = 0) ∧
      (s.world.socket c).reads.length ≤ 1 ∧
      (s.world.socket c).taken <+: (s.world.socket c).arrived ∧
      ∀ word ∈ s.words c, (s.world.socket c).arrived <+: text (typed word) := by
  have hinv := dialog_inv_run h
  have hphase := hinv.phase c
  have hend := end_phase hphase
  refine ⟨?_, fun hmain => ?_, fun call hmain => ?_, hinv.once c, ?_, fun word hword => ?_⟩
  · rcases hend with ⟨hwords, -⟩ | ⟨word, hwords, -⟩
    · rw [hwords]
      exact Nat.zero_le 1
    · rw [hwords]
      exact Nat.le_refl 1
  · rw [hmain] at hphase
    exact hphase.1
  · rw [hmain] at hphase
    obtain ⟨-, -, -, -, hrecv⟩ := hphase
    exact hrecv
  · rw [hinv.world.flow c]
    exact List.prefix_append _ _
  · rcases hend with ⟨hwords, -⟩ | ⟨first, hwords, hpre⟩
    · rw [hwords] at hword
      cases hword
    · rw [hwords, List.mem_singleton] at hword
      rwa [hword]

theorem gone_step (h : DialogInv s) (hc : c < s.world.connected) (hgone : s.Gone c)
    (hs : Step s t) :
    t.Gone c ∧ c < t.world.connected ∧ t.world.socket c = s.world.socket c := by
  have hplace : s.running = true → c ∉ s.world.backlog ++ s.world.accepted := fun hrun =>
    hgone.resolve_left (by rw [hrun]; nofun)
  have hready : ∀ {rest}, s.running = true → s.todo = .conn c :: rest → False := by
    intro rest hrun htodo
    exact hplace hrun (List.mem_append_right _ (h.ready (.conn c) (htodo ▸ List.mem_cons_self)).1)
  cases hs with
  | server hs =>
    cases hs with
    | wait hrun => exact ⟨hgone, hc, rfl⟩
    | accept hrun hout htodo hback =>
      rename_i rest d cs
      have hcd : c ≠ d := by
        rintro rfl
        exact hplace hrun (by rw [hback]; exact List.mem_cons_self)
      exact ⟨Or.inr fun hm => hplace hrun ((accept_perm hback).mem_iff.mp hm), hc,
        set_socket_ne hcd⟩
    | fails hrun => exact ⟨Or.inl rfl, hc, rfl⟩
    | recv hrun hout htodo hne =>
      rename_i d rest
      have hcd : c ≠ d := by
        rintro rfl
        exact hready hrun htodo
      exact ⟨hgone, hc, set_socket_ne hcd⟩
    | recvFails hrun => exact ⟨hgone, hc, rfl⟩
    | close hrun hin =>
      refine ⟨Or.inr fun hm => hplace hrun ?_, hc, rfl⟩
      exact (List.Sublist.append_left List.erase_sublist _).mem hm
  | client hs =>
    cases hs with
    | connect hrun =>
      refine ⟨Or.inr fun hm => ?_, Nat.lt_succ_of_lt hc, rfl⟩
      have hno := hplace hrun
      simp only [System.move, System.goOn, World.connect, List.mem_append,
        List.mem_singleton] at hm hno
      rcases hm with (hm | rfl) | hm
      · exact hno (Or.inl hm)
      · exact Nat.lt_irrefl _ hc
      · exact hno (Or.inr hm)
    | scanf hmain => exact ⟨hgone, hc, rfl⟩
    | send hmain hrun hpos hle hopen =>
      rename_i d call k
      have hcd : c ≠ d := by
        rintro rfl
        exact hopen hgone
      exact ⟨hgone, hc, set_socket_ne hcd⟩
    | pipe hmain => exact ⟨hgone, hc, rfl⟩
    | sent hmain => exact ⟨hgone, hc, rfl⟩
    | recvEnd hmain => exact ⟨hgone, hc, rfl⟩
    | recvReset hmain => exact ⟨hgone, hc, rfl⟩
    | received hmain => exact ⟨hgone, hc, rfl⟩

inductive Waits (inbound : List UInt8) (call : RecvData) : Phase → Prop where
  | still : Waits inbound call (.receiving call)
  | zero (hrun : call.returned = none) (hnil : inbound = []) :
      Waits inbound call (.receiving (call.turn (0 : ℕ) []))
  | error (hrun : call.returned = none) (hne : inbound ≠ []) :
      Waits inbound call (.receiving (call.turn (-1) []))
  | back {r} (hret : call.returned = some r) :
      Waits inbound call (if r < 0 then .ended else .prompt)

/-- A step of one client leaves the others where they are. -/
theorem move_cases {P : Phase → Prop} {d : ℕ} {p : Phase} (hother : P (s.main c))
    (hown : d = c → P p) : P ((s.move d p).main c) := by
  by_cases hcd : c = d
  · subst hcd
    simpa only [System.move, Function.update_self] using hown rfl
  · simpa only [System.move, Function.update_of_ne hcd] using hother

theorem waits_step {call : RecvData} (h : DialogInv s) (hmain : s.main c = .receiving call)
    (hs : Step s t) : Waits (s.world.socket c).inbound call (t.main c) := by
  have hstill : Waits (s.world.socket c).inbound call (s.main c) := hmain ▸ .still
  cases hs with
  | server hs => cases hs <;> exact hstill
  | client hs =>
    cases hs with
    | connect hrun =>
      refine move_cases hstill fun he => ?_
      have hlt := connected_of_main h (by rw [hmain]; nofun)
      omega
    | scanf hd => exact move_cases hstill fun he => by rw [he, hmain] at hd; cases hd
    | send hd => exact move_cases hstill fun he => by rw [he, hmain] at hd; cases hd
    | pipe hd => exact move_cases hstill fun he => by rw [he, hmain] at hd; cases hd
    | sent hd => exact move_cases hstill fun he => by rw [he, hmain] at hd; cases hd
    | recvEnd hd hrun hgone hnil =>
      refine move_cases hstill fun he => ?_
      subst he
      obtain rfl := Phase.receiving.inj (hmain.symm.trans hd)
      exact .zero hrun hnil
    | recvReset hd hrun hgone hne =>
      refine move_cases hstill fun he => ?_
      subst he
      obtain rfl := Phase.receiving.inj (hmain.symm.trans hd)
      exact .error hrun hne
    | received hd hret =>
      refine move_cases hstill fun he => ?_
      subst he
      obtain rfl := Phase.receiving.inj (hmain.symm.trans hd)
      exact .back hret

theorem ended_step (hc : c < s.world.connected) (hmain : s.main c = .ended) (hs : Step s t) :
    t.main c = .ended := by
  have hother : ∀ {v : System} {d : ℕ} {p : Phase}, v.main = s.main → s.main d ≠ .ended →
      (v.move d p).main c = .ended := by
    intro v d p hv hd
    refine move_cases (P := (· = .ended)) (hv ▸ hmain) fun he => absurd ?_ hd
    rw [he, hmain]
  cases hs with
  | server hs => cases hs <;> exact hmain
  | client hs =>
    cases hs with
    | connect hrun =>
      exact move_cases (P := (· = .ended)) hmain fun he => absurd hc (he ▸ Nat.lt_irrefl _)
    | scanf hd => exact hother rfl (by rw [hd]; nofun)
    | send hd => exact hother rfl (by rw [hd]; nofun)
    | pipe hd => exact hother rfl (by rw [hd]; nofun)
    | sent hd => exact hother rfl (by rw [hd]; nofun)
    | recvEnd hd => exact hother rfl (by rw [hd]; nofun)
    | recvReset hd => exact hother rfl (by rw [hd]; nofun)
    | received hd => exact hother rfl (by rw [hd]; nofun)

/-- A client whose connection has been closed, somewhere in `P`. -/
structure Served (c : ℕ) (inbound : List UInt8) (P : Phase → Prop) (s : System) : Prop where
  inv : DialogInv s
  gone : s.Gone c
  connected : c < s.world.connected
  left : (s.world.socket c).inbound = inbound
  phase : P (s.main c)

theorem served_run {inbound : List UInt8} {P : Phase → Prop} (h : Served c inbound P s)
    (hkinds : ∀ p, P p → (∃ call, p = .receiving call) ∨ p = .ended)
    (hwaits : ∀ call p, P (.receiving call) → Waits inbound call p → P p)
    (hrest : Run Step m s u) : Served c inbound P u := by
  have hkeep : ∀ t v, Served c inbound P t → Step t v → Served c inbound P v := by
    intro t v ht hs
    obtain ⟨hgone, hc, hsock⟩ := gone_step ht.inv ht.connected ht.gone hs
    refine ⟨dialog_inv_step ht.inv hs, hgone, hc, hsock ▸ ht.left, ?_⟩
    have hphase := ht.phase
    rcases hkinds _ ht.phase with ⟨call, hmain⟩ | hmain
    · have hw := waits_step ht.inv hmain hs
      rw [ht.left] at hw
      rw [hmain] at hphase
      exact hwaits call _ hphase hw
    · rw [hmain] at hphase
      rwa [ended_step ht.connected hmain hs]
  exact run_invariant hkeep h hrest

/-- A client that waits for an answer on a connection that has been closed asks for ever if the
server has read all of its word. If something has been left unread, an error ends it. -/
theorem served_client_fate {call : RecvData} (h : Run Step n System.start s) (hgone : s.Gone c)
    (hmain : s.main c = .receiving call) (hrun : call.returned = none) (hrest : Run Step m s u) :
    ((s.world.socket c).inbound = [] → ∃ call', u.main c = .receiving call' ∧
      call'.returned = none ∧ Talks u (u.move c (.receiving (call'.turn (0 : ℕ) [])))) ∧
    ((s.world.socket c).inbound ≠ [] →
      u.main c = .receiving call ∧ Talks u (u.move c (.receiving (call.turn (-1) []))) ∨
      u.main c = .receiving (call.turn (-1) []) ∧ Talks u (u.move c .ended) ∨
      u.main c = .ended) := by
  have hinv := dialog_inv_run h
  have hc := connected_of_main hinv (by rw [hmain]; nofun)
  constructor
  · intro hnil
    have hstart : Served c [] (fun p => ∃ call', p = .receiving call' ∧ call'.returned = none) s :=
      ⟨hinv, hgone, hc, hnil, call, hmain, hrun⟩
    have hend := served_run hstart (fun p hp => Or.inl ⟨hp.choose, hp.choose_spec.1⟩) ?_ hrest
    · obtain ⟨call', hmain', hrun'⟩ := hend.phase
      exact ⟨call', hmain', hrun', .recvEnd hmain' hrun' hend.gone hend.left⟩
    · rintro d p ⟨call', hp, hrun'⟩ hw
      obtain rfl := Phase.receiving.inj hp
      cases hw with
      | still => exact ⟨_, rfl, hrun'⟩
      | zero hrun hnil =>
        refine ⟨_, rfl, ?_⟩
        rw [recv_turn_eq, recv_running]
        exact recv_running.mp hrun'
      | error hrun hne => exact absurd rfl hne
      | back hret => exact absurd (hrun'.symm.trans hret) nofun
  · intro hne
    have hfail : (call.turn (-1) []).returned = some (-1) := rfl
    have hstart : Served c (s.world.socket c).inbound (fun p => p = .receiving call ∨
        p = .receiving (call.turn (-1) []) ∨ p = .ended) s :=
      ⟨hinv, hgone, hc, rfl, Or.inl hmain⟩
    have hend := served_run hstart ?_ ?_ hrest
    · rcases hend.phase with hmain' | hmain' | hmain'
      · exact Or.inl ⟨hmain', .recvReset hmain' hrun hend.gone (hend.left ▸ hne)⟩
      · exact Or.inr (Or.inl ⟨hmain', .received hmain' hfail⟩)
      · exact Or.inr (Or.inr hmain')
    · rintro p (hp | hp | hp)
      · exact Or.inl ⟨_, hp⟩
      · exact Or.inl ⟨_, hp⟩
      · exact Or.inr hp
    · rintro d p (hp | hp | hp) hw
      · obtain rfl := Phase.receiving.inj hp
        cases hw with
        | still => exact Or.inl rfl
        | zero hrun' hnil => exact absurd hnil hne
        | error => exact Or.inr (Or.inl rfl)
        | back hret => exact absurd (hrun.symm.trans hret) nofun
      · obtain rfl := Phase.receiving.inj hp
        cases hw with
        | still => exact Or.inr (Or.inl rfl)
        | zero hrun' => exact absurd (hrun'.symm.trans hfail) nofun
        | error hrun' => exact absurd (hrun'.symm.trans hfail) nofun
        | back hret =>
          obtain rfl := Option.some.inj (hfail.symm.trans hret)
          exact Or.inr (Or.inr rfl)
      · cases hp

def talking : System :=
  ((((((System.start.goOn World.start.connect [] none).move 0 .prompt).type 0 [104]).move 0
    (.sending (message [104]))).goOn
      (World.start.connect.setSocket 0 (Socket.fresh.arrive [104])) [] none).move 0
        (.sending ((message [104]).turn (1 : ℕ)))).move 0 (.receiving (recvData (typed [104]) 1024))

def served : System :=
  talking.goOn (((talking.world.accept 0 []).read 0 1024).close 0) [] none

theorem served_reachable : Run Step 9 System.start served := by
  have hconnect : Step System.start _ := .client (.connect rfl)
  have htype := (Run.tail (.refl System.start) hconnect).tail (.client (@Talks.scanf _ 0
    [104] rfl (by decide)))
  have hsend := htype.tail (.client (.send (c := 0) (k := 1) rfl rfl Nat.one_pos (by decide)
    (not_or.mpr ⟨nofun, not_not.mpr (List.mem_singleton_self 0)⟩)))
  have hsent := hsend.tail (.client (.sent (c := 0) (r := 1) rfl rfl))
  have hwait := hsent.tail (.server (@Serves.wait _ [.listener] rfl rfl rfl
    (List.nodup_singleton _) (by decide) (by decide)))
  have haccept := hwait.tail (.server (@Serves.accept _ [] 0 [] rfl rfl rfl rfl))
  have hwait := haccept.tail (.server (@Serves.wait _ [.conn 0] rfl rfl rfl
    (List.nodup_singleton _) (by decide) (by decide)))
  have hrecv := hwait.tail (.server (.recv (c := 0) rfl rfl rfl (by decide)))
  exact hrecv.tail (.server (.close (c := 0) rfl rfl))

theorem one_word_each_sample : (served.world.socket 0).taken <+: (served.world.socket 0).arrived :=
  (one_word_each served_reachable 0).2.2.2.2.1

theorem served_client_fate_sample : ¬ ∃ m u, Run Step m served u ∧ u.main 0 = .ended := by
  rintro ⟨m, u, hrest, hended⟩
  obtain ⟨call', hmain, -⟩ := (served_client_fate (c := 0) served_reachable (Or.inr nofun) rfl rfl
    hrest).1 rfl
  exact absurd (hended.symm.trans hmain) nofun

end Results

end DomainSocketClients
