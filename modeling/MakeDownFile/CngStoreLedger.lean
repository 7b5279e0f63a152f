import MakeDownFile.CngStoreSession
import MakeDownFile.ResourceLedger

/-! # What a store session leaves open

Two ledgers over the system calls of a session: key handles the caller has to free, and
certificate contexts. The one key object keeps only the handle of the last accepted
certificate, so an owned handle is lost as soon as a later certificate is accepted. -/
namespace CngStoreLedger

open ResourceLedger
open CngWorld
open CngKeymgmt
open CngStore
open CngStoreSession

/-- Key handles acquired with caller_must_free TRUE, against NCryptFreeObject. -/
def keyLedger : Ledger SysCall Handle where
  acquires
    | .acquirePrivateKey _ h true => [h]
    | _ => []
  releases
    | .freeObject h => h.toList
    | _ => []

/-- Certificate contexts; enumerating on from one frees it. -/
def certLedger : Ledger SysCall ℕ where
  acquires
    | .enumCertificates _ next => next.toList
    | _ => []
  releases
    | .enumCertificates prev _ => prev.toList
    | _ => []

@[simp] theorem free_acquired (h : Option Handle) (b : Handle) :
    keyLedger.acquired [.freeObject h] b = 0 := by
  simp [keyLedger]

@[simp] theorem free_released (h : Option Handle) (b : Handle) :
    keyLedger.released [.freeObject h] b = h.toList.count b := by
  simp [keyLedger]

@[simp] theorem free_certs (h : Option Handle) (a : ℕ) :
    certLedger.acquired [.freeObject h] a = 0 ∧ certLedger.released [.freeObject h] a = 0 := by
  simp [certLedger]

def Owned (r : AcquireResult) : Prop := r.retval = winTrue ∧ r.callerMustFree = winTrue

instance (r : AcquireResult) : Decidable (Owned r) := inferInstanceAs (Decidable (_ ∧ _))

theorem owned_of_accepted {r : AcquireResult} (h : ¬ Rejected r) : Owned r :=
  have ⟨hret, _, hfree⟩ := not_rejected.mp h
  ⟨hret, hfree⟩

def Shadowed (store : CertStore) (n : ℕ) : Prop :=
  ∃ p q, p < q ∧ q < n ∧ Owned (acquireResult store p) ∧ ¬ Rejected (acquireResult store q)

/-- The system calls for the certificate at `i`: the enumeration that reaches it and, when
it succeeds, the acquisition of its key as handle `n`. -/
def visit (store : CertStore) (prev : Option ℕ) (i n : ℕ) : List SysCall :=
  .enumCertificates prev (some i) :: if (acquireResult store i).retval = winTrue then
    [.acquirePrivateKey i n (decide ((acquireResult store i).callerMustFree = winTrue))]
  else []

section Visit

variable (store : CertStore) (prev : Option ℕ) (i : ℕ)

theorem visit_trace (w : World) :
    (cryptAcquireCertificatePrivateKey store i (w.emit (.enumCertificates prev (some i)))).2.trace =
      w.trace ++ visit store prev i w.next := by
  unfold cryptAcquireCertificatePrivateKey visit
  split <;> simp

theorem visit_next (w : World) : w.next ≤ (cryptAcquireCertificatePrivateKey store i
    (w.emit (.enumCertificates prev (some i)))).2.next := by
  unfold cryptAcquireCertificatePrivateKey
  split
  · exact Nat.le_succ _
  · exact le_rfl

theorem visit_acquired (n : ℕ) (h : Handle) : keyLedger.acquired (visit store prev i n) h =
    if Owned (acquireResult store i) ∧ h = n then 1 else 0 := by
  unfold visit Owned
  by_cases hret : (acquireResult store i).retval = winTrue
  · by_cases hfree : (acquireResult store i).callerMustFree = winTrue
    · simp [hret, hfree, keyLedger, Ledger.acquired, List.count_singleton, @eq_comm ℕ n h]
    · simp [hret, hfree, keyLedger, Ledger.acquired]
  · simp [hret, keyLedger, Ledger.acquired]

theorem visit_released (n : ℕ) (h : Handle) :
    keyLedger.released (visit store prev i n) h = 0 := by
  unfold visit
  split <;> simp [keyLedger, Ledger.released]

theorem visit_certs (n a : ℕ) :
    certLedger.acquired (visit store prev i n) a = [i].count a ∧
      certLedger.released (visit store prev i n) a = prev.toList.count a := by
  unfold visit
  split <;> simp [certLedger, Ledger.acquired, Ledger.released]

/-- The handle variable is written by every successful acquisition, owned or not. -/
theorem visit_handle {w : World} {b : Handle} (h : (cryptAcquireCertificatePrivateKey store i
    (w.emit (.enumCertificates prev (some i)))).1 = some b) :
    b = w.next ∧ w.next < (cryptAcquireCertificatePrivateKey store i
      (w.emit (.enumCertificates prev (some i)))).2.next := by
  unfold cryptAcquireCertificatePrivateKey at h ⊢
  split at h
  · rename_i hret
    rw [if_pos hret]
    cases h
    exact ⟨rfl, Nat.lt_succ_self _⟩
  · cases h

theorem visit_owned (w : World) (ho : Owned (acquireResult store i)) :
    (cryptAcquireCertificatePrivateKey store i
      (w.emit (.enumCertificates prev (some i)))).1 = some w.next := by
  simp [cryptAcquireCertificatePrivateKey, ho.1]

end Visit

/-- Reaching the end, the recursion has freed every handle it acquired on the way. -/
def Unwound (added : List SysCall) : Prop := keyLedger.Covered added

/-- Stopping at `i`, the recursion has freed nothing: it holds the handle in the key object,
and next to it a handle of every owned certificate it passed. -/
structure Stopped (ctx : StoreCtx) (w : World) (i : ℕ) (added : List SysCall) : Prop where
  from_position : position ctx.prevKeyCertCtx ≤ i
  nothing_freed : ∀ h, keyLedger.released added h = 0
  slot : ∃ h, w.keydata ctx.key = some ⟨h⟩ ∧ keyLedger.acquired added h = 1
  passed : (∃ h, w.keydata ctx.key ≠ some ⟨h⟩ ∧ 0 < keyLedger.acquired added h) ↔
    ∃ p, position ctx.prevKeyCertCtx ≤ p ∧ p < i ∧
      Owned (acquireResult ctx.windowsCertificateStore p)

structure AdvanceEntries (ctx : StoreCtx) (w : World) (r : Bool × StoreCtx × World)
    (added : List SysCall) : Prop where
  trace : r.2.2.trace = w.trace ++ added
  young : ∀ h, 0 < keyLedger.acquired added h ∨ 0 < keyLedger.released added h →
    w.next ≤ h ∧ h < r.2.2.next
  certs : ∀ a, ctx.prevKeyCertCtx.toList.count a + certLedger.acquired added a =
    r.2.1.prevKeyCertCtx.toList.count a + certLedger.released added a
  keys : r.1 = false ∧ r.2.1.prevKeyCertCtx = none ∧ Unwound added ∨
    ∃ i, r.1 = true ∧ r.2.1.prevKeyCertCtx = some i ∧ Stopped ctx r.2.2 i added

variable {ctx : StoreCtx} {w : World} {i : ℕ} {added : List SysCall}

theorem rejected_entries {r : Bool × StoreCtx × World}
    (h : AdvanceEntries { ctx with prevKeyCertCtx := some i, privKeyStoreEof := false }
      (cryptAcquireCertificatePrivateKey ctx.windowsCertificateStore i
        (w.emit (.enumCertificates ctx.prevKeyCertCtx (some i)))).2 r added)
    (hle : (cryptAcquireCertificatePrivateKey ctx.windowsCertificateStore i
        (w.emit (.enumCertificates ctx.prevKeyCertCtx (some i)))).2.next ≤ r.2.2.next) :
    let events := visit ctx.windowsCertificateStore ctx.prevKeyCertCtx i w.next ++ added
    r.2.2.trace = w.trace ++ events ∧
    (∀ b, 0 < keyLedger.acquired events b ∨ 0 < keyLedger.released events b →
      w.next ≤ b ∧ b < r.2.2.next) ∧
    ∀ a, ctx.prevKeyCertCtx.toList.count a + certLedger.acquired events a =
      r.2.1.prevKeyCertCtx.toList.count a + certLedger.released events a := by
  refine ⟨?_, fun b hb => ?_, fun a => ?_⟩
  · rw [h.trace, visit_trace, List.append_assoc]
  · rw [acquired_append, released_append, visit_acquired, visit_released] at hb
    have hadded := h.young b
    have hn := visit_next ctx.windowsCertificateStore ctx.prevKeyCertCtx i w
    split at hb
    · rename_i ho
      obtain ⟨ho, rfl⟩ := ho
      exact ⟨le_rfl, (visit_handle _ _ _ (visit_owned _ _ _ w ho)).2.trans_le hle⟩
    · have := hadded (by omega)
      exact ⟨hn.trans this.1, this.2⟩
  · have hc := h.certs a
    obtain ⟨ha, hr⟩ := visit_certs ctx.windowsCertificateStore ctx.prevKeyCertCtx i w.next a
    rw [acquired_append, released_append, ha, hr]
    simp only [Option.toList_some] at hc
    omega

theorem Stopped.rejected {v : World} {j : ℕ} (hi : i = position ctx.prevKeyCertCtx)
    (hyoung : Owned (acquireResult ctx.windowsCertificateStore i) →
      keyLedger.acquired added w.next = 0)
    (h : Stopped { ctx with prevKeyCertCtx := some i, privKeyStoreEof := false } v j added) :
    Stopped ctx v j (visit ctx.windowsCertificateStore ctx.prevKeyCertCtx i w.next ++ added) := by
  obtain ⟨b, hb, hone⟩ := h.slot
  have hfrom : i + 1 ≤ j := h.from_position
  have hfirst : Owned (acquireResult ctx.windowsCertificateStore i) → b ≠ w.next := by
    rintro ho rfl
    rw [hyoung ho] at hone
    cases hone
  refine ⟨by omega, fun a => ?_, ⟨b, hb, ?_⟩, ?_⟩
  · rw [released_append, visit_released, h.nothing_freed]
  · rw [acquired_append, visit_acquired, hone, if_neg fun hc => hfirst hc.1 hc.2]
  · constructor
    · rintro ⟨a, hne, hpos⟩
      rw [acquired_append, visit_acquired] at hpos
      split at hpos
      · rename_i hc
        exact ⟨i, hi.ge, hfrom, hc.1⟩
      · obtain ⟨p, hp, hpj, hown⟩ := h.passed.mp ⟨a, hne, by omega⟩
        have hp' : i + 1 ≤ p := hp
        exact ⟨p, by omega, hpj, hown⟩
    · rintro ⟨p, hp, hpj, hown⟩
      rcases Nat.eq_or_lt_of_le (hi.le.trans hp) with rfl | hlt
      · refine ⟨w.next, fun he => hfirst hown ?_, ?_⟩
        · rw [hb] at he
          cases he
          rfl
        · rw [acquired_append, visit_acquired, if_pos ⟨hown, rfl⟩]
          omega
      · obtain ⟨a, hne, hpos⟩ := h.passed.mpr ⟨p, hlt, hpj, hown⟩
        exact ⟨a, hne, by rw [acquired_append]; omega⟩

theorem Unwound.rejected (prev : Option ℕ) (store : CertStore) (h : Unwound added) :
    Unwound (visit store prev i w.next ++ added ++ [.freeObject
      (cryptAcquireCertificatePrivateKey store i
        (w.emit (.enumCertificates prev (some i)))).1]) := by
  intro b
  have hb := h b
  rw [acquired_append, released_append, acquired_append, released_append, visit_acquired,
    visit_released, free_acquired, free_released]
  split
  · rename_i hc
    obtain ⟨ho, rfl⟩ := hc
    rw [visit_owned store prev i w ho, Option.toList_some, List.count_singleton_self]
    omega
  · omega

theorem accepted_entries (hi : i = position ctx.prevKeyCertCtx)
    (hacc : ¬ Rejected (acquireResult ctx.windowsCertificateStore i)) :
    let acq := cryptAcquireCertificatePrivateKey ctx.windowsCertificateStore i
      (w.emit (.enumCertificates ctx.prevKeyCertCtx (some i)))
    AdvanceEntries ctx w (true, { ctx with prevKeyCertCtx := some i, privKeyStoreEof := false },
        acq.2.setKeydata ctx.key (acq.1.map KeyData.mk))
      (visit ctx.windowsCertificateStore ctx.prevKeyCertCtx i w.next) := by
  intro acq
  have ho := owned_of_accepted hacc
  have hacq : acq.1 = some w.next := visit_owned _ ctx.prevKeyCertCtx _ w ho
  constructor
  · exact visit_trace _ _ _ _
  · intro b hb
    rw [visit_acquired, visit_released] at hb
    split at hb
    · rename_i hc
      rw [hc.2]
      exact ⟨le_rfl, (visit_handle _ _ _ hacq).2⟩
    · simp at hb
  · intro a
    obtain ⟨ha, hr⟩ := visit_certs ctx.windowsCertificateStore ctx.prevKeyCertCtx i w.next a
    rw [ha, hr, Nat.add_comm]
    rfl
  · refine Or.inr ⟨i, rfl, rfl, hi.ge, fun b => visit_released _ _ _ _ _, ⟨w.next, ?_, ?_⟩, ?_⟩
    · simp [hacq]
    · rw [visit_acquired, if_pos ⟨ho, rfl⟩]
    · constructor
      · rintro ⟨b, hne, hpos⟩
        rw [visit_acquired] at hpos
        split at hpos
        · rename_i hc
          exact absurd (by simp [hacq, hc.2]) hne
        · cases hpos
      · rintro ⟨p, hp, hlt, _⟩
        omega

theorem advance_entries (ctx : StoreCtx) (w : World) (hw : Fresh w) (hk : ctx.key < w.next) :
    ∃ added, AdvanceEntries ctx w (loadAnotherPrivkeyFromStoreIntoContext ctx w) added := by
  fun_induction loadAnotherPrivkeyFromStoreIntoContext ctx w with
  | case1 ctx w hn =>
    exact ⟨[.enumCertificates ctx.prevKeyCertCtx none], rfl, by simp [keyLedger],
      by simp [certLedger], Or.inl ⟨rfl, rfl, fun a => by simp [keyLedger]⟩⟩
  | case2 ctx w i hn ctx' acq hrej r hr ih =>
    obtain ⟨hi, _⟩ := next_cert_some.mp hn
    have hn := visit_next ctx.windowsCertificateStore ctx.prevKeyCertCtx i w
    have hf : Fresh acq.2 := acquire_fresh (emit_fresh hw _)
    obtain ⟨added, hadded⟩ := ih hf (hk.trans_le hn)
    obtain ⟨_, hframe, _⟩ := load_privkey_spec ctx' acq.2 hf (hk.trans_le hn)
    obtain ⟨ht, hy, hc⟩ := rejected_entries hadded hframe.next_le
    refine ⟨_, ht, hy, hc, ?_⟩
    rcases hadded.keys with ⟨hfalse, _⟩ | ⟨j, _, hj, hstop⟩
    · rw [hfalse] at hr; cases hr
    · refine Or.inr ⟨j, hr, hj, hstop.rejected hi fun ho => Nat.eq_zero_of_not_pos fun hpos => ?_⟩
      have hlt := (visit_handle _ _ _ (visit_owned _ ctx.prevKeyCertCtx _ w ho)).2
      exact Nat.not_le_of_lt hlt (hadded.young _ (Or.inl hpos)).1
  | case3 ctx w i hn ctx' acq hrej r hr ih =>
    have hn := visit_next ctx.windowsCertificateStore ctx.prevKeyCertCtx i w
    have hf : Fresh acq.2 := acquire_fresh (emit_fresh hw _)
    obtain ⟨added, hadded⟩ := ih hf (hk.trans_le hn)
    obtain ⟨_, hframe, _⟩ := load_privkey_spec ctx' acq.2 hf (hk.trans_le hn)
    obtain ⟨ht, hy, hc⟩ := rejected_entries hadded hframe.next_le
    rcases hadded.keys with ⟨_, hnone, hun⟩ | ⟨j, htrue, _⟩
    · refine ⟨visit ctx.windowsCertificateStore ctx.prevKeyCertCtx i w.next ++ added ++
        [.freeObject acq.1], ?_, fun b hb => ?_, fun a => ?_,
        Or.inl ⟨rfl, hnone, hun.rejected _ _⟩⟩
      · rw [World.freeObject_trace, ht, List.append_assoc]
      · rw [acquired_append, released_append] at hb
        rw [free_acquired, free_released] at hb
        rcases Nat.eq_zero_or_pos (acq.1.toList.count b) with hz | hpos
        · exact hy b (hb.imp id fun h => by rwa [hz] at h)
        · have hacq : acq.1 = some b := Option.mem_toList.mp (List.count_pos_iff.mp hpos)
          obtain ⟨rfl, hlt⟩ := visit_handle _ _ _ hacq
          exact ⟨le_rfl, hlt.trans_le hframe.next_le⟩
      · rw [acquired_append, released_append, (free_certs _ _).1, (free_certs _ _).2]
        exact hc a
    · exact absurd htrue hr
  | case4 ctx w i hn ctx' acq hacc =>
    exact ⟨_, accepted_entries (next_cert_some.mp hn).1 hacc⟩

/-- The account of the key ledger when the key cursor has passed the first `n` certificates:
handles are unaccounted for exactly when some owned one was shadowed. -/
structure KeyAccount (store : CertStore) (key : Addr) (n : ℕ) (t : List SysCall) (w : World) :
    Prop where
  older : ∀ h, 0 < keyLedger.acquired t h ∨ 0 < keyLedger.released t h → h < w.next
  none_accepted : (∀ q, q < n → Rejected (acquireResult store q)) → keyLedger.Covered t
  slot : ∀ q, q < n → ¬ Rejected (acquireResult store q) →
    ∃ h, w.keydata key = some ⟨h⟩ ∧ keyLedger.released t h < keyLedger.acquired t h
  clean : ¬ Shadowed store n → ∀ h, keyLedger.acquired t h ≤
    keyLedger.released t h + if w.keydata key = some ⟨h⟩ then 1 else 0
  lost : Shadowed store n →
    ∃ h, w.keydata key ≠ some ⟨h⟩ ∧ keyLedger.released t h < keyLedger.acquired t h

theorem KeyAccount.extend {store : CertStore} {key : Addr} {n : ℕ} {t added : List SysCall}
    {w w' : World} (h : KeyAccount store key n t w)
    (hadded : ∀ b, keyLedger.acquired added b = 0 ∧ keyLedger.released added b = 0)
    (hnext : w.next ≤ w'.next) (hkey : w'.keydata key = w.keydata key) :
    KeyAccount store key n (t ++ added) w' := by
  have ha : ∀ b, keyLedger.acquired (t ++ added) b = keyLedger.acquired t b := fun b => by
    rw [acquired_append, (hadded b).1, Nat.add_zero]
  have hr : ∀ b, keyLedger.released (t ++ added) b = keyLedger.released t b := fun b => by
    rw [released_append, (hadded b).2, Nat.add_zero]
  constructor
  · intro b hb
    rw [ha, hr] at hb
    exact (h.older b hb).trans_le hnext
  · intro hq b
    rw [ha, hr]
    exact h.none_accepted hq b
  · intro q hq hacc
    simpa only [ha, hr, hkey] using h.slot q hq hacc
  · intro hs b
    simpa only [ha, hr, hkey] using h.clean hs b
  · intro hs
    simpa only [ha, hr, hkey] using h.lost hs

section Append

variable {store : CertStore} {key : Addr} {n : ℕ} {t : List SysCall} {v : World}
  (h : KeyAccount store key n t w)
  (hyoung : ∀ b, 0 < keyLedger.acquired added b ∨ 0 < keyLedger.released added b →
    w.next ≤ b ∧ b < v.next)

include h in
theorem KeyAccount.absent {b : Handle} (hb : w.next ≤ b) :
    keyLedger.acquired t b = 0 ∧ keyLedger.released t b = 0 := by
  constructor <;> refine Nat.eq_zero_of_not_pos fun hpos => Nat.not_lt_of_le hb ?_
  · exact h.older b (Or.inl hpos)
  · exact h.older b (Or.inr hpos)

include hyoung in
theorem young_absent {b : Handle} (hb : b < w.next) :
    keyLedger.acquired added b = 0 ∧ keyLedger.released added b = 0 := by
  constructor <;> refine Nat.eq_zero_of_not_pos fun hpos => Nat.not_le_of_lt hb ?_
  · exact (hyoung b (Or.inl hpos)).1
  · exact (hyoung b (Or.inr hpos)).1

include h hyoung in
theorem KeyAccount.older_append (hnext : w.next ≤ v.next) (b : Handle)
    (hb : 0 < keyLedger.acquired (t ++ added) b ∨ 0 < keyLedger.released (t ++ added) b) :
    b < v.next := by
  rw [acquired_append, released_append] at hb
  by_cases he : 0 < keyLedger.acquired added b ∨ 0 < keyLedger.released added b
  · exact (hyoung b he).2
  · exact (h.older b (by omega)).trans_le hnext

end Append

/-- The cursor stops at an accepted certificate: what it passed on the way, and what the key
object held before, is lost if owned. -/
theorem KeyAccount.stop {t : List SysCall} {v : World}
    (h : KeyAccount ctx.windowsCertificateStore ctx.key (position ctx.prevKeyCertCtx) t w)
    (hstand : ∀ p, ctx.prevKeyCertCtx = some p →
      ¬ Rejected (acquireResult ctx.windowsCertificateStore p))
    (hacc : ¬ Rejected (acquireResult ctx.windowsCertificateStore i))
    (hyoung : ∀ b, 0 < keyLedger.acquired added b ∨ 0 < keyLedger.released added b →
      w.next ≤ b ∧ b < v.next)
    (hslot : ∀ b, v.keydata ctx.key = some ⟨b⟩ → w.next ≤ b) (hnext : w.next ≤ v.next)
    (hstop : Stopped ctx v i added) :
    KeyAccount ctx.windowsCertificateStore ctx.key (i + 1) (t ++ added) v := by
  have hfrom := hstop.from_position
  obtain ⟨s, hs, hone⟩ := hstop.slot
  constructor
  · exact h.older_append hyoung hnext
  · intro hrej
    exact absurd (hrej i (Nat.lt_succ_self i)) hacc
  · intro _ _ _
    refine ⟨s, hs, ?_⟩
    obtain ⟨ha, hr⟩ := h.absent (hslot s hs)
    rw [acquired_append, released_append, ha, hr, hone, hstop.nothing_freed]
    omega
  · intro hclean b
    rw [acquired_append, released_append, hstop.nothing_freed]
    have hbefore : ∀ q, q < position ctx.prevKeyCertCtx →
        Rejected (acquireResult ctx.windowsCertificateStore q) := fun q hq =>
      not_not.mp fun hn => hclean ⟨q, i, by omega, by omega, owned_of_accepted hn, hacc⟩
    have hcov := h.none_accepted hbefore b
    by_cases hb : v.keydata ctx.key = some ⟨b⟩
    · rw [if_pos hb]
      obtain rfl : s = b := by simpa [hs] using hb
      omega
    · have hzero : keyLedger.acquired added b = 0 := by
        refine Nat.eq_zero_of_not_pos fun hpos => ?_
        obtain ⟨p, _, hpi, hown⟩ := hstop.passed.mp ⟨b, hb, hpos⟩
        exact hclean ⟨p, i, hpi, Nat.lt_succ_self i, hown, hacc⟩
      omega
  · rintro ⟨p, q, hpq, hqi, hown, _⟩
    by_cases hp : position ctx.prevKeyCertCtx ≤ p
    · obtain ⟨b, hb, hpos⟩ := hstop.passed.mpr ⟨p, hp, by omega, hown⟩
      refine ⟨b, hb, ?_⟩
      rw [acquired_append, released_append, hstop.nothing_freed,
        (h.absent (hyoung b (Or.inl hpos)).1).2]
      omega
    · -- the cursor stood on an accepted certificate, whose handle is overwritten
      cases hc : ctx.prevKeyCertCtx with
      | none =>
        rw [hc, position] at hp
        omega
      | some c =>
        obtain ⟨b, hb, hlt⟩ := h.slot c (by rw [hc]; exact Nat.lt_succ_self c) (hstand c hc)
        have hbw : b < w.next := h.older b (Or.inl (by omega))
        refine ⟨b, fun he => Nat.not_le_of_lt hbw (hslot b he), ?_⟩
        rw [acquired_append, released_append, (young_absent hyoung hbw).1, hstop.nothing_freed]
        exact hlt

theorem KeyAccount.finish {t : List SysCall} {v : World}
    (h : KeyAccount ctx.windowsCertificateStore ctx.key (position ctx.prevKeyCertCtx) t w)
    (hrej : ∀ q, position ctx.prevKeyCertCtx ≤ q →
      Rejected (acquireResult ctx.windowsCertificateStore q))
    (hyoung : ∀ b, 0 < keyLedger.acquired added b ∨ 0 < keyLedger.released added b →
      w.next ≤ b ∧ b < v.next)
    (hkey : v.keydata ctx.key = w.keydata ctx.key) (hnext : w.next ≤ v.next)
    (hun : Unwound added) (n : ℕ) (hn : position ctx.prevKeyCertCtx ≤ n) :
    KeyAccount ctx.windowsCertificateStore ctx.key n (t ++ added) v := by
  have hbefore : ∀ q, ¬ Rejected (acquireResult ctx.windowsCertificateStore q) →
      q < position ctx.prevKeyCertCtx := fun q hq => Nat.lt_of_not_le fun hle => hq (hrej q hle)
  constructor
  · exact h.older_append hyoung hnext
  · intro hq b
    have := h.none_accepted (fun q hlt => hq q (hlt.trans_le hn)) b
    have := hun b
    rw [acquired_append, released_append]
    omega
  · intro q _ hacc
    obtain ⟨b, hb, hlt⟩ := h.slot q (hbefore q hacc) hacc
    obtain ⟨ha, hr⟩ := young_absent hyoung (h.older b (Or.inl (by omega)))
    exact ⟨b, hkey.trans hb, by rw [acquired_append, released_append, ha, hr]; exact hlt⟩
  · intro hclean b
    have hc := h.clean (fun ⟨p, q, hpq, hq, hown, hacc⟩ =>
      hclean ⟨p, q, hpq, hq.trans_le hn, hown, hacc⟩) b
    have := hun b
    rw [acquired_append, released_append, hkey]
    omega
  · rintro ⟨p, q, hpq, _, hown, hacc⟩
    obtain ⟨b, hb, hlt⟩ := h.lost ⟨p, q, hpq, hbefore q hacc, hown, hacc⟩
    obtain ⟨ha, hr⟩ := young_absent hyoung (h.older b (Or.inl (by omega)))
    exact ⟨b, by rwa [hkey], by rw [acquired_append, released_append, ha, hr]; exact hlt⟩

def visited (ctx : StoreCtx) : ℕ :=
  match ctx.prevKeyCertCtx with
  | some i => i + 1
  | none => ctx.windowsCertificateStore.length

theorem account_advance {t : List SysCall} (hw : Fresh w) (hk : ctx.key < w.next)
    (hstand : ∀ p, ctx.prevKeyCertCtx = some p →
      ¬ Rejected (acquireResult ctx.windowsCertificateStore p))
    (hle : position ctx.prevKeyCertCtx ≤ ctx.windowsCertificateStore.length)
    (h : KeyAccount ctx.windowsCertificateStore ctx.key (position ctx.prevKeyCertCtx) t w) :
    let r := loadAnotherPrivkeyFromStoreIntoContext ctx w
    ∃ added, r.2.2.trace = w.trace ++ added ∧
      KeyAccount ctx.windowsCertificateStore ctx.key (visited r.2.1) (t ++ added) r.2.2 ∧
      ∀ a, ctx.prevKeyCertCtx.toList.count a + certLedger.acquired added a =
        r.2.1.prevKeyCertCtx.toList.count a + certLedger.released added a := by
  obtain ⟨added, hadded⟩ := advance_entries ctx w hw hk
  obtain ⟨_, hframe, hcase⟩ := load_privkey_spec ctx w hw hk
  refine ⟨added, hadded.trace, ?_, hadded.certs⟩
  rcases hcase with ⟨ha, hctx, hfalse, hd⟩ | ⟨i, ha, hctx, htrue, hi, hh, hge⟩
  · rcases hadded.keys with ⟨_, _, hun⟩ | ⟨_, ht, _⟩
    · have hrej : ∀ q, position ctx.prevKeyCertCtx ≤ q →
          Rejected (acquireResult ctx.windowsCertificateStore q) := fun q hq => by
        refine not_not.mp fun hn => ?_
        have hmem := mem_accepted_from.mpr ⟨hq, hn⟩
        rw [ha] at hmem
        cases hmem
      have hn : visited (loadAnotherPrivkeyFromStoreIntoContext ctx w).2.1 =
          ctx.windowsCertificateStore.length := by rw [hctx]; rfl
      rw [hn]
      exact h.finish hrej hadded.young (by rw [hd]) hframe.next_le hun _ hle
    · rw [hfalse] at ht
      cases ht
  · rcases hadded.keys with ⟨hf, _⟩ | ⟨j, _, hj, hstop⟩
    · rw [htrue] at hf
      cases hf
    · have hij : i = j := by
        rw [hctx] at hj
        exact Option.some.inj hj
      subst hij
      have hn : visited (loadAnotherPrivkeyFromStoreIntoContext ctx w).2.1 = i + 1 := by
        rw [hctx]; rfl
      rw [hn]
      exact h.stop hstand hh.1 hadded.young hge hframe.next_le hstop

def heldCerts (ctx : StoreCtx) (a : ℕ) : ℕ :=
  ctx.prevCertCtx.toList.count a + ctx.prevKeyCertCtx.toList.count a

def SessionAccount (start : World) (s : Session) : Prop :=
  ∃ t, s.world.trace = start.trace ++ t ∧
    KeyAccount s.ctx.windowsCertificateStore s.ctx.key (visited s.ctx) t s.world ∧
    certLedger.Holds t (heldCerts s.ctx)

theorem enum_keys (prev next : Option ℕ) (b : Handle) :
    keyLedger.acquired [.enumCertificates prev next] b = 0 ∧
      keyLedger.released [.enumCertificates prev next] b = 0 := by
  simp [keyLedger]

theorem enum_certs (prev next : Option ℕ) (a : ℕ) :
    certLedger.acquired [.enumCertificates prev next] a = next.toList.count a ∧
      certLedger.released [.enumCertificates prev next] a = prev.toList.count a := by
  simp [certLedger]

theorem open_account {o : OpenCalls} {provctx : Option Addr} {uri : Option (List Char)}
    {w w' : World} {ctx : StoreCtx} (hw : Fresh w)
    (h : cngStoreOpen o provctx uri w = some (some ctx, w')) :
    SessionAccount w (Session.start ctx w') := by
  obtain ⟨name, store, _, _, hk⟩ := store_open_cases h
  let c := loadAnotherCertFromStoreIntoContext
    ⟨store, none, false, none, w.next, false, some name⟩ w.addKeydata
  let t : List SysCall := [.enumCertificates none (nextCert store none)]
  have hacc : KeyAccount store w.next 0 t c.2 := by
    have hz := enum_keys none (nextCert store none)
    refine ⟨fun b hb => ?_, fun _ b => ?_, fun q hq => ?_, fun _ b => ?_, fun hs => ?_⟩
    · have := hz b
      simp only [t] at hb
      omega
    · have := hz b
      simp only [t]
      omega
    · cases hq
    · have := hz b
      simp only [t]
      omega
    · obtain ⟨_, _, _, hq, _⟩ := hs
      cases hq
  have hf : Fresh c.2 := emit_fresh hw.addKeydata _
  have hlt : c.1.key < c.2.next := Nat.lt_succ_self _
  have hstand : ∀ p, c.1.prevKeyCertCtx = some p →
      ¬ Rejected (acquireResult c.1.windowsCertificateStore p) := by
    intro p hp
    cases hp
  obtain ⟨added, ht, hkeys, hcerts⟩ := account_advance hf hlt hstand (Nat.zero_le _) hacc
  obtain ⟨hkey, hst, hprev⟩ := load_privkey_ctx hf hlt
  simp only [c, hk] at ht hkeys hcerts hkey hst hprev
  have hkey' : ctx.key = w.next := hkey
  have hst' : ctx.windowsCertificateStore = store := hst
  have hprev' : ctx.prevCertCtx = nextCert store none := hprev
  refine ⟨t ++ added, ?_, ?_, fun a => ?_⟩
  · rw [← List.append_assoc]
    exact ht
  · change KeyAccount ctx.windowsCertificateStore ctx.key (visited ctx) (t ++ added) w'
    rw [hst', hkey']
    exact hkeys
  · obtain ⟨ha, hr⟩ := enum_certs none (nextCert store none) a
    have hc : certLedger.acquired added a =
        ctx.prevKeyCertCtx.toList.count a + certLedger.released added a :=
      (Nat.zero_add _).symm.trans (hcerts a)
    change _ = _ + (ctx.prevCertCtx.toList.count a + ctx.prevKeyCertCtx.toList.count a)
    rw [acquired_append, released_append, ha, hr, hc, hprev', Option.toList_none, List.count_nil]
    omega

theorem callback_entries {o : CallbackResult} {s s' : Session} (hs : SessionInv s)
    (h : objectCb o s = some s') :
    ∃ added, s'.world.trace = s.world.trace ++ added ∧ s.world.next ≤ s'.world.next ∧
      s'.world.keydata s.ctx.key = s.world.keydata s.ctx.key ∧
      (∀ b, keyLedger.acquired added b = 0 ∧ keyLedger.released added b = 0) ∧
      ∀ a, certLedger.acquired added a = 0 ∧ certLedger.released added a = 0 := by
  obtain ⟨kd, hkd⟩ := hs.key_live
  have hlt := hs.fresh.keydata_lt hkd
  obtain ⟨r, w', hw, rfl⟩ := object_cb_cases h
  rcases hw with ⟨_, rfl⟩ | ⟨d, hload⟩
  · exact ⟨[], by simp, le_rfl, rfl, by simp, by simp⟩
  · obtain ⟨_, hnext, _, hd, _⟩ := frame_keymgmt_dup hs.fresh hload
    rcases keymgmt_dup_cases hs.fresh hload with ⟨_, rfl | rfl⟩ | ⟨p, kd', k, _, _, _, _, rfl⟩
    · exact ⟨[], by simp, hnext, hd _ hlt, by simp, by simp⟩
    · exact ⟨[], by simp, hnext, hd _ hlt, by simp, by simp⟩
    · exact ⟨[.openKey (s.world.next + 1)], by simp, hnext, hd _ hlt, by simp [keyLedger],
        by simp [certLedger]⟩

theorem load_account {start : World} {o : CallbackResult} {s s' : Session} {ret : ℤ}
    (hs : SessionInv s) (hacc : SessionAccount start s) (h : cngStoreLoad o s = some (ret, s')) :
    SessionAccount start s' := by
  obtain ⟨t, ht, hkeys, hcerts⟩ := hacc
  rcases store_load_cases h with ⟨_, rfl⟩ | ⟨i, cert, hi, _, rfl⟩ | ⟨s₁, hk, hcb, hs'⟩
  · exact ⟨t, ht, hkeys, hcerts⟩
  · refine ⟨t ++ [.enumCertificates (some i) (nextCert s.ctx.windowsCertificateStore (some i))],
      by simp [ht], hkeys.extend (enum_keys _ _) le_rfl rfl, hcerts.extend fun a => ?_⟩
    obtain ⟨ha, hr⟩ :=
      enum_certs (some i) (nextCert s.ctx.windowsCertificateStore (some i)) a
    simp only [heldCerts, hi, ha, hr]
    omega
  · obtain ⟨added, ht₁, hnext, hkey, hk₁, hc₁⟩ := callback_entries hs hcb
    obtain ⟨hs₁, hctx, _⟩ := object_cb_inv hs hcb
    have hkeys₁ := hkeys.extend hk₁ hnext hkey
    have hcerts₁ : certLedger.Holds (t ++ added) (heldCerts s.ctx) := hcerts.extend fun a => by
      rw [(hc₁ a).1, (hc₁ a).2]
    rw [ht, List.append_assoc] at ht₁
    rw [← hctx] at hkeys₁ hcerts₁
    rcases hs' with rfl | rfl
    · exact ⟨t ++ added, ht₁, hkeys₁, hcerts₁⟩
    · obtain ⟨kd, hkd⟩ := hs₁.key_live
      have hlt := hs₁.fresh.keydata_lt hkd
      have hlive : ∃ p, s₁.ctx.prevKeyCertCtx = some p := by
        have := hs.key_eof
        rw [hk, ← hctx] at this
        exact Option.isSome_iff_exists.mp (by simpa using this.symm)
      obtain ⟨p, hp⟩ := hlive
      have hpos : position s₁.ctx.prevKeyCertCtx = visited s₁.ctx := by
        simp only [hp, visited, position]
      rw [← hpos] at hkeys₁
      obtain ⟨more, ht', hkeys', hc'⟩ := account_advance hs₁.fresh hlt
        (fun q hq => (hs₁.key_holds q hq).1)
        (by rw [hp]; exact hs₁.key_lt p hp) hkeys₁
      obtain ⟨hkey₂, hst₂, hprev₂⟩ := load_privkey_ctx hs₁.fresh hlt
      refine ⟨t ++ added ++ more, ?_, ?_, hcerts₁.extend fun a => ?_⟩
      · rw [ht', ht₁, List.append_assoc]
      · simp only [hkey₂, hst₂]
        exact hkeys'
      · have := hc' a
        simp only [heldCerts, hprev₂]
        omega

def closing (kd : KeyData) : List SysCall :=
  [.closeStore, .freeObject (some kd.windowsKeyHandle)]

theorem KeyAccount.closed_iff {store : CertStore} {key : Addr} {n : ℕ} {t : List SysCall}
    {kd : KeyData} (h : KeyAccount store key n t w) (hkd : w.keydata key = some kd) :
    keyLedger.Covered (t ++ closing kd) ↔ ¬ Shadowed store n := by
  have ha : ∀ b, keyLedger.acquired (t ++ closing kd) b = keyLedger.acquired t b := fun b => by
    simp [closing, keyLedger, Ledger.acquired]
  have hr : ∀ b, keyLedger.released (t ++ closing kd) b =
      keyLedger.released t b + if w.keydata key = some ⟨b⟩ then 1 else 0 := fun b => by
    obtain ⟨k⟩ := kd
    simp [closing, keyLedger, Ledger.released, hkd, List.count_singleton]
  constructor
  · intro hz hsh
    obtain ⟨b, hne, hlt⟩ := h.lost hsh
    have := hz b
    rw [ha, hr, if_neg hne] at this
    omega
  · intro hns b
    rw [ha, hr]
    exact h.clean hns b

theorem certs_closed_iff {s : Session} {t : List SysCall} (hs : SessionInv s)
    (h : certLedger.Holds t (heldCerts s.ctx)) (kd : KeyData) :
    certLedger.Covered (t ++ closing kd) ↔ cngStoreEof s = true := by
  have hend : certLedger.Holds (t ++ closing kd) (heldCerts s.ctx) :=
    h.extend fun a => by simp [closing, certLedger, Ledger.acquired, Ledger.released]
  rw [hend.covered_iff, cngStoreEof, hs.cert_eof, hs.key_eof, Bool.and_eq_true]
  constructor
  · intro hz
    cases hc : s.ctx.prevCertCtx with
    | some i => simpa [heldCerts, hc] using hz i
    | none =>
      cases hk : s.ctx.prevKeyCertCtx with
      | some i => simpa [heldCerts, hk] using hz i
      | none => exact ⟨rfl, rfl⟩
  · rintro ⟨hc, hk⟩ a
    simp [heldCerts, Option.isNone_iff_eq_none.mp hc, Option.isNone_iff_eq_none.mp hk]

def ReadToEnd (store : CertStore) (os : List CallbackResult) : Prop :=
  store.length ≤ os.length ∧
    (acceptedFrom store 0).length ≤ (os.drop store.length).countP fun o => o.privKeyRet ≠ 0

theorem eof_iff_read_to_end {ctx : StoreCtx} {w : World} (hs : SessionInv (Session.start ctx w))
    (hp : pending ctx = contents ctx.windowsCertificateStore) {os : List CallbackResult}
    {s : Session} (hl : loads (Session.start ctx w) os = some s) :
    cngStoreEof s = true ↔ ReadToEnd ctx.windowsCertificateStore os := by
  obtain ⟨_, hl', hs', hpend⟩ := loads_refine_queue os hs
  cases hl.symm.trans hl'
  have hp' : pending (Session.start ctx w).ctx = contents ctx.windowsCertificateStore := hp
  rw [← pending_nil_iff hs', hpend, hp', contents, remaining_eq_nil]
  rfl

/-- A session that ends in a successful close leaves nothing open exactly when the store
was read to its end and no owned handle was shadowed by a later accepted certificate. -/
theorem cng_store_session_released_iff {o : OpenCalls} {provctx : Option Addr}
    {uri : Option (List Char)} {w w' : World} {ctx : StoreCtx} (hw : Fresh w)
    (hopen : cngStoreOpen o provctx uri w = some (some ctx, w')) (os : List CallbackResult) :
    ∃ s s' t, loads (Session.start ctx w') os = some s ∧
      cngStoreClose winTrue s = some (1, s') ∧ s'.world.trace = w.trace ++ t ∧
      (keyLedger.Covered t ∧ certLedger.Covered t ↔
        ReadToEnd ctx.windowsCertificateStore os ∧
          ¬ Shadowed ctx.windowsCertificateStore ctx.windowsCertificateStore.length) := by
  obtain ⟨_, _, _, hs₀, hp₀⟩ := store_open_spec hw hopen
  obtain ⟨s, hl, hs, _, hst, hacc⟩ := loads_invariant
    (fun _ _ _ _ hs hp h => load_account hs hp h) os hs₀ (open_account hw hopen)
  obtain ⟨ret, s', hclose, _, hcase⟩ := store_close_defined hs winTrue
  rcases hcase with ⟨_, hc, _⟩ | ⟨kd, rfl, _, hkd, rfl⟩
  · exact absurd rfl hc
  obtain ⟨t, ht, hkeys, hcerts⟩ := hacc
  have hst' : s.ctx.windowsCertificateStore = ctx.windowsCertificateStore := hst
  refine ⟨s, _, t ++ closing kd, hl, hclose, by simp [ht, closing], ?_⟩
  rw [hkeys.closed_iff hkd, certs_closed_iff hs hcerts, ← eof_iff_read_to_end hs₀ hp₀ hl, and_comm]
  refine and_congr_right fun he => ?_
  have hnone : s.ctx.prevKeyCertCtx = none := by
    have := hs.key_eof
    rw [((Bool.and_eq_true _ _).mp he).2] at this
    exact Option.isNone_iff_eq_none.mp this.symm
  simp only [visited, hnone, hst']

theorem cng_store_session_released_iff_sample : ∃ ctx w',
    cngStoreOpen sampleOpen (some 0) (some sampleUri) initial = some (some ctx, w') ∧
    ∃ s s' t, loads (Session.start ctx w') [⟨1, none⟩, ⟨1, none⟩, ⟨1, none⟩] = some s ∧
      cngStoreClose winTrue s = some (1, s') ∧ s'.world.trace = initial.trace ++ t ∧
      (keyLedger.Covered t ∧ certLedger.Covered t ↔
        ReadToEnd ctx.windowsCertificateStore [⟨1, none⟩, ⟨1, none⟩, ⟨1, none⟩] ∧
          ¬ Shadowed ctx.windowsCertificateStore ctx.windowsCertificateStore.length) :=
  ⟨_, _, rfl, cng_store_session_released_iff initial_fresh
    (show cngStoreOpen sampleOpen (some 0) (some sampleUri) initial = some (some _, _) from rfl)
    [⟨1, none⟩, ⟨1, none⟩, ⟨1, none⟩]⟩

def twoKeyOpen : OpenCalls := ⟨true, true, fun _ => some
  [⟨[1], ⟨winTrue, ⟨1, [7], 0⟩, certNcryptKeySpec, winTrue⟩⟩,
    ⟨[2], ⟨winTrue, ⟨1, [8], 0⟩, certNcryptKeySpec, winTrue⟩⟩]⟩

theorem two_key_session_leaks : ∃ ctx w' s s',
    cngStoreOpen twoKeyOpen (some 0) (some sampleUri) initial = some (some ctx, w') ∧
    loads (Session.start ctx w') (List.replicate 4 ⟨1, none⟩) = some s ∧
    cngStoreClose winTrue s = some (1, s') ∧
    ¬ (keyLedger.Covered s'.world.trace ∧ certLedger.Covered s'.world.trace) :=
  ⟨_, _, _, _, rfl, rfl, rfl, fun h => absurd (h.1 2) (by decide)⟩

end CngStoreLedger
