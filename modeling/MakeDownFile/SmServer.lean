import MakeDownFile.PeerCertificates
import Mathlib.Data.Int.Notation

/-! # The SM2 server

main loads its two certificates and keys, serves one client, and exits on nearly every
failure. -/
namespace SmServer

open CallPrograms
open CallPrograms.Prog
open HeldResources
open TraceRuns

inductive Kind where
  | ctx
  | listener
  | socket
  | ssl
  | peer
  | line
  deriving DecidableEq

structure Object where
  kind : Kind
  handle : ℕ
  deriving DecidableEq

/-- What is loaded and checked, in this order. A check fails with 0, the rest with anything up
to 0. -/
inductive Load where
  | certificate
  | privateKey
  | checkPrivateKey
  | encCertificate
  | encPrivateKey
  | checkEncPrivateKey
  deriving DecidableEq

def Load.failed : Load → Int32 → Bool
  | checkPrivateKey, r | checkEncPrivateKey, r => r == 0
  | _, r => r ≤ 0

/-- Calls on OpenSSL and on the sockets. A socket that could not be made is -1. -/
inductive Call where
  | ctxNew
  | load (ctx : ℕ) (l : Load)
  | socket
  | setsockopt (fd : Option ℕ)
  | bind (fd : ℕ)
  | listen (fd : ℕ)
  | accept (fd : ℕ)
  | sslNew (ctx : ℕ)
  | setFd (ssl fd : ℕ)
  | setAcceptState (ssl : ℕ)
  | doHandshake (ssl : ℕ)
  | getError (ssl : ℕ) (err : Int32)
  | peerCertificate (ssl : ℕ)
  | oneline (peer : ℕ) (issuer : Bool)
  | read (ssl num : ℕ)
  | write (ssl : ℕ) (text : String)
  | shutdown (ssl : ℕ)
  | free (a : Object)

abbrev Reply : Call → Type
  | .ctxNew | .socket | .accept _ | .sslNew _ | .peerCertificate _ | .oneline _ _ => Option ℕ
  | .load _ _ | .setsockopt _ | .bind _ | .listen _ | .setFd _ _ => Int32
  | .doHandshake _ | .getError _ _ | .read _ _ | .write _ _ | .shutdown _ => Int32
  | .setAcceptState _ | .free _ => Unit

abbrev Server := Prog Call Reply

abbrev ServerEvent := Event Reply

inductive End where
  | returned (ret : ℕ)
  | exited (status : ℕ)
  | running
  deriving DecidableEq

/-- RETURN_NULL, and RETURN_ERR of a socket. -/
def returnNone (c : Call) (got : Reply c → Option ℕ) (next : ℕ → Server End) : Server End :=
  .call c fun r => (got r).elim (ret (.exited 1)) next

/-- RETURN_ERR and RETURN_SSL. -/
def returnErr (c : Call) (err : Reply c → Int32) (next : Reply c → Server End) : Server End :=
  .call c fun r => if err r = -1 then ret (.exited 1) else next r

def loadAll (ctx : ℕ) : List Load → Server End → Server End
  | [], next => next
  | l :: ls, next => .call (.load ctx l) fun (r : Int32) =>
      if l.failed r then ret (.exited 1) else loadAll ctx ls next

def finish (ssl ctx : ℕ) : Server End :=
  .call (.free ⟨.ssl, ssl⟩) fun _ => .call (.free ⟨.ctx, ctx⟩) fun _ => ret (.returned 0)

/-- The handshake goes on as long as it waits for the hardware. -/
def handshake (ssl ctx : ℕ) (next : Server End) : ℕ → Server End
  | 0 => ret .running
  | rounds + 1 =>
    .call (.doHandshake ssl) fun (err : Int32) =>
      if err ≤ 0 then
        .call (.getError ssl err) fun (code : Int32) =>
          if code = 10 then handshake ssl ctx next rounds else finish ssl ctx
      else next

def certificateCalls : PeerCertificates.Calls Call Reply where
  peerCertificate := .peerCertificate
  oneline := .oneline
  freeLine := fun line => .free ⟨.line, line⟩
  freePeer := fun peer => .free ⟨.peer, peer⟩
  gotPeer := fun (p : Option ℕ) => p
  gotLine := fun (p : Option ℕ) => p

def showCerts (ssl : ℕ) (next : Server End) : Server End :=
  PeerCertificates.showCerts certificateCalls ssl next

def message : String := "-----This message is from the SSL server-----"

/-- One message is read and one is sent. A NUL goes behind what was read, which may be nothing: the
server goes on behind a reply of 0. -/
def answer (ssl sock ctx : ℕ) : Server End :=
  returnErr (.read ssl 4095) id fun (err : Int32) =>
  if err < 0 ∨ 4095 < err then fault
  else
    returnErr (.write ssl message) id fun _ =>
    returnErr (.shutdown ssl) id fun _ =>
    .call (.free ⟨.socket, sock⟩) fun _ => finish ssl ctx

/-- Only the first client is accepted. -/
def acceptClient (next : ℕ → Server End) : Server End :=
  .call .socket fun (fd : Option ℕ) =>
  .call (.setsockopt fd) fun _ =>
  fd.elim (ret (.exited 1)) fun listener =>
  returnErr (.bind listener) id fun _ =>
  returnErr (.listen listener) id fun _ =>
  returnNone (.accept listener) id fun sock =>
  .call (.free ⟨.listener, listener⟩) fun _ => next sock

def main (rounds : ℕ) : Server End :=
  returnNone .ctxNew id fun ctx =>
  loadAll ctx [.certificate, .privateKey, .checkPrivateKey, .encCertificate, .encPrivateKey,
    .checkEncPrivateKey] <|
  acceptClient fun sock =>
  returnNone (.sslNew ctx) id fun ssl =>
  .call (.setFd ssl sock) fun _ =>
  .call (.setAcceptState ssl) fun _ =>
  handshake ssl ctx (showCerts ssl (answer ssl sock ctx)) rounds

def uses : Call → List Object
  | .ctxNew | .socket | .setsockopt none => []
  | .load ctx _ | .sslNew ctx => [⟨.ctx, ctx⟩]
  | .setsockopt (some fd) | .bind fd | .listen fd | .accept fd => [⟨.listener, fd⟩]
  | .setFd ssl fd => [⟨.ssl, ssl⟩, ⟨.socket, fd⟩]
  | .setAcceptState ssl | .doHandshake ssl | .getError ssl _ => [⟨.ssl, ssl⟩]
  | .peerCertificate ssl | .read ssl _ | .write ssl _ | .shutdown ssl => [⟨.ssl, ssl⟩]
  | .oneline peer _ => [⟨.peer, peer⟩]
  | .free a => [a]

def item (k : Kind) (p : Option ℕ) : List Object := (p.map (Object.mk k)).toList

def acquires : ServerEvent → List Object
  | ⟨.ctxNew, (p : Option ℕ)⟩ => item .ctx p
  | ⟨.socket, (p : Option ℕ)⟩ => item .listener p
  | ⟨.accept _, (p : Option ℕ)⟩ => item .socket p
  | ⟨.sslNew _, (p : Option ℕ)⟩ => item .ssl p
  | ⟨.peerCertificate _, (p : Option ℕ)⟩ => item .peer p
  | ⟨.oneline _ _, (p : Option ℕ)⟩ => item .line p
  | _ => []

def releases : ServerEvent → List Object
  | ⟨.free a, _⟩ => [a]
  | _ => []

def ledger : ResourceLedger.Ledger ServerEvent Object := ⟨acquires, releases⟩

def Shaken (hist : List ServerEvent) (ssl : ℕ) : Prop :=
  ∃ err : Int32, ⟨.doHandshake ssl, err⟩ ∈ hist ∧ ¬ err ≤ 0

def Refused (hist : List ServerEvent) : Prop :=
  ∃ ssl, ∃ err code : Int32, ⟨.doHandshake ssl, err⟩ ∈ hist ∧ err ≤ 0 ∧
    ⟨.getError ssl err, code⟩ ∈ hist ∧ code ≠ 10

/-- The message and the end have been sent, as far as the server looks: neither call gave -1. -/
def Answered (hist : List ServerEvent) : Prop :=
  ∃ ssl, ∃ sent closed : Int32, sent ≠ -1 ∧ closed ≠ -1 ∧
    [⟨.write ssl message, sent⟩, ⟨.shutdown ssl, closed⟩].Sublist hist

/-- What has to have succeeded before a client is served. Only where no socket could be made is
setsockopt called without one, and a read that gave 0 is a read. -/
def Prepared (hist : List ServerEvent) : Call → Prop
  | .setsockopt fd => ⟨.socket, fd⟩ ∈ hist
  | .sslNew ctx => ∀ l : Load, ∃ r : Int32, ⟨.load ctx l, r⟩ ∈ hist ∧ l.failed r = false
  | .setFd _ fd => ∃ listener, ⟨.accept listener, some fd⟩ ∈ hist
  | .doHandshake ssl => ∃ fd, ∃ r : Int32, ⟨.setFd ssl fd, r⟩ ∈ hist
  | .read ssl _ => Shaken hist ssl
  | .write ssl _ => Shaken hist ssl ∧ ∃ err : Int32, ⟨.read ssl 4095, err⟩ ∈ hist ∧ 0 ≤ err
  | _ => True

theorem prepared_mono {s t : List ServerEvent} {c : Call} (hst : s.Sublist t) (hc : Prepared s c) :
    Prepared t c := by
  have h := hst.subset
  cases c with
  | setsockopt fd => exact h hc
  | sslNew ctx =>
    intro l
    obtain ⟨r, hr, hl⟩ := hc l
    exact ⟨r, h hr, hl⟩
  | setFd ssl fd =>
    obtain ⟨listener, hl⟩ := hc
    exact ⟨listener, h hl⟩
  | doHandshake ssl =>
    obtain ⟨fd, r, hr⟩ := hc
    exact ⟨fd, r, h hr⟩
  | read ssl num =>
    obtain ⟨err, herr, hpos⟩ := hc
    exact ⟨err, h herr, hpos⟩
  | write ssl text =>
    obtain ⟨⟨err, herr, hpos⟩, len, hlen, hnonneg⟩ := hc
    exact ⟨⟨err, h herr, hpos⟩, len, h hlen, hnonneg⟩
  | _ => trivial

def discipline : Discipline Call Reply Object := ⟨ledger, uses, Prepared, prepared_mono⟩

/-- main returns 0 with everything given back, or without the client's socket closed if the
handshake has failed. -/
def Ended (t : List ServerEvent) (held : List Object) : End → Prop
  | .returned r => r = 0 ∧ (held = [] ∧ Answered t ∨ (∃ fd, held = [⟨.socket, fd⟩]) ∧ Refused t)
  | .exited s => s = 1
  | .running => True

abbrev Safe (facts : List ServerEvent) (held : List Object) (p : Server End) : Prop :=
  discipline.Safe Ended facts held p

section Safe

variable {facts : List ServerEvent} {held : List Object} {next : Server End} {c : Call} {k : Kind}
  {ssl sock ctx : ℕ}

theorem safe_exit : Safe facts held (ret (.exited 1)) := safe_ret fun _ _ => rfl

theorem gives_free (a : Object) : discipline.Gives (.free a) a :=
  ⟨rfl, fun _ => trivial, fun _ => rfl, fun _ => rfl⟩

theorem certificates_kept : certificateCalls.Kept discipline (Object.mk .ssl) (Object.mk .peer)
    (Object.mk .line) where
  peerCertificate := fun _ => ⟨rfl, fun _ => trivial, fun _ => rfl, fun _ => rfl⟩
  oneline := fun _ _ => ⟨rfl, fun _ => trivial, fun _ => rfl, fun _ => rfl⟩
  freeLine := fun line => gives_free ⟨.line, line⟩
  freePeer := fun peer => gives_free ⟨.peer, peer⟩

theorem safe_free {a : Object} {f : Unit → Server End} (h : ∀ r, Safe facts held (f r)) :
    Safe facts (a :: held) (.call (.free a) f) :=
  (gives_free a).safe h

theorem safe_return_err {err : Reply c → Int32} {f : Reply c → Server End} (huses : uses c ⊆ held)
    (hc : Prepared facts c) (hacq : ∀ r, acquires ⟨c, r⟩ = []) (hrel : ∀ r, releases ⟨c, r⟩ = [])
    (hnext : ∀ r, err r ≠ -1 → Safe (facts ++ [⟨c, r⟩]) held (f r)) :
    Safe facts held (returnErr c err f) := by
  apply safe_plain (c := c) huses hc hacq hrel
  intro r
  by_cases hr : err r = -1
  · rw [if_pos hr]
    exact safe_exit
  · rw [if_neg hr]
    exact hnext r hr

theorem safe_return_none {got : Reply c → Option ℕ} {f : ℕ → Server End} (huses : uses c ⊆ held)
    (hc : Prepared facts c) (hacq : ∀ r, acquires ⟨c, r⟩ = item k (got r))
    (hrel : ∀ r, releases ⟨c, r⟩ = [])
    (hnext : ∀ r p, got r = some p → Safe (facts ++ [⟨c, r⟩]) (⟨k, p⟩ :: held) (f p)) :
    Safe facts held (returnNone c got f) := by
  apply safe_get (c := c) (g := Object.mk k) huses hc hacq hrel
  · intro r hr
    rw [hr]
    exact safe_exit
  · intro r p hr
    rw [hr]
    exact hnext r p hr

theorem safe_finish (hend : ∀ t, facts.Sublist t → held = [] ∧ Answered t ∨
    (∃ fd, held = [⟨.socket, fd⟩]) ∧ Refused t) :
    Safe facts (⟨.ssl, ssl⟩ :: ⟨.ctx, ctx⟩ :: held) (finish ssl ctx) := by
  apply safe_free
  intro _
  apply safe_free
  intro _
  exact safe_ret fun t ht => ⟨rfl, hend t ht⟩

theorem safe_load_all {ls : List Load} (done : List Load) (hctx : ⟨.ctx, ctx⟩ ∈ held)
    (hdone : ∀ l ∈ done, ∃ r : Int32, ⟨.load ctx l, r⟩ ∈ facts ∧ l.failed r = false)
    (hnext : ∀ facts', facts.Sublist facts' → (∀ l ∈ done ++ ls, ∃ r : Int32,
      ⟨.load ctx l, r⟩ ∈ facts' ∧ l.failed r = false) → Safe facts' held next) :
    Safe facts held (loadAll ctx ls next) := by
  induction ls generalizing facts done with
  | nil =>
    rw [List.append_nil] at hnext
    exact hnext facts (List.Sublist.refl _) hdone
  | cons l ls ih =>
    apply safe_plain (c := Call.load ctx l) (List.cons_subset.mpr ⟨hctx, List.nil_subset _⟩) trivial
      (fun _ => rfl) fun _ => rfl
    intro (r : Int32)
    cases hr : l.failed r with
    | true => exact safe_exit
    | false =>
      refine ih (done ++ [l]) (fun l' hl' => ?_) fun facts' hsub hall => ?_
      · rcases List.mem_append.mp hl' with hl' | hl'
        · obtain ⟨r', hr', hok⟩ := hdone l' hl'
          exact ⟨r', List.mem_append_left _ hr', hok⟩
        · rw [List.mem_singleton.mp hl']
          exact ⟨r, List.mem_concat_self, hr⟩
      · rw [List.append_assoc] at hall
        exact hnext facts' ((List.sublist_append_left _ _).trans hsub) hall

theorem safe_answer (h : Shaken facts ssl) :
    Safe facts [⟨.ssl, ssl⟩, ⟨.socket, sock⟩, ⟨.ctx, ctx⟩] (answer ssl sock ctx) := by
  have hused : [Object.mk .ssl ssl] ⊆ [⟨.ssl, ssl⟩, ⟨.socket, sock⟩, ⟨.ctx, ctx⟩] :=
    List.cons_subset.mpr ⟨List.mem_cons_self, List.nil_subset _⟩
  apply safe_return_err (c := Call.read ssl 4095) hused h (fun _ => rfl) fun _ => rfl
  intro (err : Int32) herr
  by_cases hrange : err < 0 ∨ 4095 < err
  · rw [if_pos hrange]
    exact safe_fault
  · rw [if_neg hrange]
    have hshaken : ∀ facts' : List ServerEvent, facts.Sublist facts' → Shaken facts' ssl := by
      intro facts' hsub
      obtain ⟨e, he, hpos⟩ := h
      exact ⟨e, hsub.subset he, hpos⟩
    have hread : 0 ≤ err := by
      by_contra hneg
      exact hrange (Or.inl (Int32.not_le.mp hneg))
    apply safe_return_err (c := Call.write ssl message) hused
      ⟨hshaken _ (List.sublist_append_left _ _), err, List.mem_concat_self, hread⟩
      (fun _ => rfl) fun _ => rfl
    intro (sent : Int32) hsent
    apply safe_return_err (c := Call.shutdown ssl) hused trivial (fun _ => rfl) fun _ => rfl
    intro (closed : Int32) hclosed
    apply safe_perm (List.Perm.swap _ _ _)
    apply safe_free
    intro _
    apply safe_finish
    intro t ht
    rw [List.append_assoc] at ht
    exact Or.inl ⟨rfl, ssl, sent, closed, hsent, hclosed, (List.sublist_append_right _ _).trans ht⟩

/-- The client's socket stays open when the handshake fails. -/
theorem safe_handshake (rounds : ℕ) (hset : ∃ fd, ∃ r : Int32, ⟨.setFd ssl fd, r⟩ ∈ facts) :
    Safe facts [⟨.ssl, ssl⟩, ⟨.socket, sock⟩, ⟨.ctx, ctx⟩]
      (handshake ssl ctx (showCerts ssl (answer ssl sock ctx)) rounds) := by
  have hused : [Object.mk .ssl ssl] ⊆ [⟨.ssl, ssl⟩, ⟨.socket, sock⟩, ⟨.ctx, ctx⟩] :=
    List.cons_subset.mpr ⟨List.mem_cons_self, List.nil_subset _⟩
  induction rounds generalizing facts with
  | zero => exact safe_ret fun _ _ => trivial
  | succ rounds ih =>
    apply safe_plain (c := Call.doHandshake ssl) hused hset (fun _ => rfl) fun _ => rfl
    intro (err : Int32)
    by_cases herr : err ≤ 0
    · rw [if_pos herr]
      apply safe_plain (c := Call.getError ssl err) hused trivial (fun _ => rfl) fun _ => rfl
      intro (code : Int32)
      by_cases hcode : code = 10
      · rw [if_pos hcode]
        obtain ⟨fd, r, hr⟩ := hset
        exact ih ⟨fd, r, List.mem_append_left _ (List.mem_append_left _ hr)⟩
      · rw [if_neg hcode]
        apply safe_perm ((List.Perm.swap _ _ _).cons _)
        apply safe_finish
        intro t ht
        exact Or.inr ⟨⟨sock, rfl⟩, ssl, err, code,
          ht.subset (List.mem_append_left _ List.mem_concat_self), herr,
          ht.subset List.mem_concat_self, hcode⟩
    · rw [if_neg herr]
      apply PeerCertificates.safe_show_certs certificates_kept List.mem_cons_self
      exact safe_answer ⟨err, List.mem_concat_self, herr⟩

theorem safe_accept_client {f : ℕ → Server End}
    (hnext : ∀ facts' sock, facts.Sublist facts' → (∃ l, ⟨.accept l, some sock⟩ ∈ facts') →
      Safe facts' [⟨.socket, sock⟩, ⟨.ctx, ctx⟩] (f sock)) :
    Safe facts [⟨.ctx, ctx⟩] (acceptClient f) := by
  apply safe_get (c := Call.socket) (g := Object.mk .listener) (q := fun p : Option ℕ => p)
    (List.nil_subset _) trivial (fun _ => rfl) fun _ => rfl
  · intro fd hfd
    cases hfd
    apply safe_plain (c := Call.setsockopt none) (List.nil_subset _) List.mem_concat_self
      (fun _ => rfl) fun _ => rfl
    exact fun _ => safe_exit
  · intro fd listener hfd
    cases hfd
    have hused : [Object.mk .listener listener] ⊆ [⟨.listener, listener⟩, ⟨.ctx, ctx⟩] :=
      List.cons_subset.mpr ⟨List.mem_cons_self, List.nil_subset _⟩
    apply safe_plain (c := Call.setsockopt (some listener)) hused List.mem_concat_self
      (fun _ => rfl) fun _ => rfl
    intro _
    apply safe_return_err (c := Call.bind listener) hused trivial (fun _ => rfl) fun _ => rfl
    intro _ _
    apply safe_return_err (c := Call.listen listener) hused trivial (fun _ => rfl) fun _ => rfl
    intro _ _
    apply safe_return_none (c := Call.accept listener) (k := .socket) hused trivial (fun _ => rfl)
      fun _ => rfl
    intro r sock hr
    cases hr
    apply safe_perm (List.Perm.swap _ _ _)
    apply safe_free
    intro _
    apply hnext
    · simp only [List.append_assoc]
      exact List.sublist_append_left _ _
    · exact ⟨listener, List.mem_concat_self⟩

theorem main_safe (rounds : ℕ) : Safe [] [] (main rounds) := by
  apply safe_return_none (c := Call.ctxNew) (k := .ctx) (List.nil_subset _) trivial (fun _ => rfl)
    fun _ => rfl
  intro r ctx hr
  cases hr
  apply safe_load_all [] List.mem_cons_self nofun
  intro facts hsub hloaded
  apply safe_accept_client
  intro facts' sock hsub' hsock
  have hprepared : Prepared facts' (.sslNew ctx) := by
    intro l
    obtain ⟨r, hr, hok⟩ := hloaded l (by cases l <;> decide)
    exact ⟨r, hsub'.subset hr, hok⟩
  apply safe_return_none (c := Call.sslNew ctx) (k := .ssl)
    (List.cons_subset.mpr ⟨List.mem_cons_of_mem _ List.mem_cons_self, List.nil_subset _⟩) hprepared
    (fun _ => rfl) fun _ => rfl
  intro r ssl hr
  cases hr
  have haccepted : Prepared (facts' ++ [⟨.sslNew ctx, some ssl⟩]) (.setFd ssl sock) := by
    obtain ⟨listener, hlistener⟩ := hsock
    exact ⟨listener, List.mem_append_left _ hlistener⟩
  apply safe_plain (c := Call.setFd ssl sock)
    (List.cons_subset.mpr ⟨List.mem_cons_self, List.cons_subset.mpr
      ⟨List.mem_cons_of_mem _ List.mem_cons_self, List.nil_subset _⟩⟩) haccepted (fun _ => rfl)
    fun _ => rfl
  intro r
  apply safe_plain (c := Call.setAcceptState ssl)
    (List.cons_subset.mpr ⟨List.mem_cons_self, List.nil_subset _⟩) trivial (fun _ => rfl)
    fun _ => rfl
  intro _
  exact safe_handshake rounds ⟨sock, r, List.mem_append_left _ List.mem_concat_self⟩

end Safe

/-- The server works only on what it has got and not yet given back, serves a client only with all
its keys checked, and sends its message only behind a handshake and a read. It returns 0 with
everything given back once message and end are sent; a handshake that fails leaves the client's
socket open. What reads and writes is anything but -1. -/
structure KeepsOrder (t : List ServerEvent) (out : Option End) : Prop where
  live : Always (fun hist e => ∀ a ∈ uses e.1, ledger.released hist a < ledger.acquired hist a) [] t
  prepared : Always (fun hist e => Prepared hist e.1) [] t
  returned : ∀ r, out = some (.returned r) → r = 0 ∧
    ((∀ a, ledger.acquired t a = ledger.released t a) ∧ Answered t ∨
      (∃ fd, ∀ a, ledger.acquired t a =
        ledger.released t a + if a = ⟨.socket, fd⟩ then 1 else 0) ∧ Refused t)
  exited : ∀ s, out = some (.exited s) → s = 1

theorem server_keeps_order (rounds : ℕ) (env : List ServerEvent → (c : Call) → Reply c) :
    KeepsOrder (run env [] (main rounds)).1 (run env [] (main rounds)).2 := by
  have hgood := safe_run (main_safe rounds) env
  refine ⟨hgood.live, hgood.prepared, fun r hr => ?_, fun s hs => ?_⟩
  · obtain ⟨held, hacc, hret, hend⟩ := hgood.ended _ hr
    refine ⟨hret, ?_⟩
    rcases hend with ⟨rfl, hanswered⟩ | ⟨⟨fd, rfl⟩, hrefused⟩
    · exact Or.inl ⟨hacc, hanswered⟩
    · refine Or.inr ⟨⟨fd, fun a => (hacc a).trans ?_⟩, hrefused⟩
      show _ + List.count a [⟨.socket, fd⟩] = _
      rw [List.count_singleton]
      by_cases ha : a = ⟨.socket, fd⟩
      · rw [if_pos ha, if_pos (beq_iff_eq.mpr ha.symm)]
        rfl
      · rw [if_neg ha, if_neg fun h => ha (beq_iff_eq.mp h).symm]
        rfl
  · obtain ⟨held, _, hexit⟩ := hgood.ended _ hs
    exact hexit

end SmServer
