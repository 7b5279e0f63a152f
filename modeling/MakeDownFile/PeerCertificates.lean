import MakeDownFile.HeldResources

/-! # The certificate of the peer

ShowCerts, which the client of the token and the SM2 server both have: two names of the
certificate are printed, and each is given back before the next one is got. -/
namespace PeerCertificates

open CallPrograms
open CallPrograms.Prog
open HeldResources

structure Calls (C : Type) (R : C → Type) where
  peerCertificate : ℕ → C
  oneline : ℕ → Bool → C
  freeLine : ℕ → C
  freePeer : ℕ → C
  gotPeer : ∀ {ssl : ℕ}, R (peerCertificate ssl) → Option ℕ
  gotLine : ∀ {peer : ℕ} {issuer : Bool}, R (oneline peer issuer) → Option ℕ

variable {C : Type} {R : C → Type} {κ α : Type}

/-- Printing a name that is NULL is undefined. -/
def showName (k : Calls C R) (peer : ℕ) (issuer : Bool) (next : Prog C R α) : Prog C R α :=
  .call (k.oneline peer issuer) fun r =>
    (k.gotLine r).elim fault fun line => .call (k.freeLine line) fun _ => next

def showCerts (k : Calls C R) (ssl : ℕ) (next : Prog C R α) : Prog C R α :=
  .call (k.peerCertificate ssl) fun r =>
    (k.gotPeer r).elim next fun peer =>
      showName k peer false <|
      showName k peer true <|
      .call (k.freePeer peer) fun _ => next

structure Calls.Kept (k : Calls C R) (D : Discipline C R κ) (ssl peer line : ℕ → κ) : Prop where
  peerCertificate : ∀ s, D.Gets (k.peerCertificate s) k.gotPeer peer (ssl s)
  oneline : ∀ p issuer, D.Gets (k.oneline p issuer) k.gotLine line (peer p)
  freeLine : ∀ l, D.Gives (k.freeLine l) (line l)
  freePeer : ∀ p, D.Gives (k.freePeer p) (peer p)

variable [DecidableEq κ] {k : Calls C R} {D : Discipline C R κ} {ssl peer line : ℕ → κ}
  {Q : List (Event R) → List κ → α → Prop} {facts : List (Event R)} {held : List κ}
  {next : Prog C R α}

theorem safe_show_name (hk : k.Kept D ssl peer line) {p : ℕ} {issuer : Bool} (hp : peer p ∈ held)
    (hnext : D.Safe Q facts held next) : D.Safe Q facts held (showName k p issuer next) := by
  apply (hk.oneline p issuer).safe hp
  · intro r hr
    rw [hr]
    exact safe_fault
  · intro r l hr
    rw [hr]
    apply (hk.freeLine l).safe
    exact fun _ => safe_mono hnext (List.sublist_append_left _ _)

/-- Without a certificate nothing is got, and else all of it is given back. -/
theorem safe_show_certs (hk : k.Kept D ssl peer line) {s : ℕ} (hs : ssl s ∈ held)
    (hnext : D.Safe Q facts held next) : D.Safe Q facts held (showCerts k s next) := by
  apply (hk.peerCertificate s).safe hs
  · intro r hr
    rw [hr]
    exact safe_mono hnext (List.sublist_append_left _ _)
  · intro r p hr
    rw [hr]
    apply safe_show_name hk List.mem_cons_self
    apply safe_show_name hk List.mem_cons_self
    apply (hk.freePeer p).safe
    exact fun _ => safe_mono hnext (List.sublist_append_left _ _)

end PeerCertificates
