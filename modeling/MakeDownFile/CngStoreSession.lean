import MakeDownFile.CngStore

/-! # Store sessions

A session refines a queue: opening fills it with every certificate and then every usable
key, and a load takes off the head. The key objects loaded on the way live on by
themselves. -/
namespace CngStoreSession

open CngWorld
open CngKeymgmt
open CngStore

/-- What a store session still has to deliver, as an abstract queue. -/
inductive StoreObject where
  | cert (encoded : List UInt8)
  | key (i : ℕ)
  deriving DecidableEq, Repr

def certObjects (certs : List CertContext) : List StoreObject :=
  certs.map fun c => .cert c.encoded

/-- Every certificate, then one key for every accepted acquisition, in store order. -/
def contents (store : CertStore) : List StoreObject :=
  certObjects store ++ (acceptedFrom store 0).map .key

def pendingCerts (ctx : StoreCtx) : List CertContext :=
  match ctx.prevCertCtx with
  | none => []
  | some i => ctx.windowsCertificateStore.drop i

def pendingKeys (ctx : StoreCtx) : List ℕ :=
  match ctx.prevKeyCertCtx with
  | none => []
  | some i => i :: acceptedFrom ctx.windowsCertificateStore (i + 1)

def pending (ctx : StoreCtx) : List StoreObject :=
  certObjects (pendingCerts ctx) ++ (pendingKeys ctx).map .key

/-- The two cursors, the two eof flags and the shared key object agree. -/
structure SessionInv (s : Session) : Prop where
  fresh : Fresh s.world
  key_live : ∃ kd, s.world.keydata s.ctx.key = some kd
  cert_eof : s.ctx.certStoreEof = s.ctx.prevCertCtx.isNone
  cert_lt : ∀ i, s.ctx.prevCertCtx = some i → i < s.ctx.windowsCertificateStore.length
  key_eof : s.ctx.privKeyStoreEof = s.ctx.prevKeyCertCtx.isNone
  key_lt : ∀ i, s.ctx.prevKeyCertCtx = some i → i < s.ctx.windowsCertificateStore.length
  key_holds : ∀ i, s.ctx.prevKeyCertCtx = some i →
    HoldsKeyOf s.ctx.windowsCertificateStore s.ctx.key i s.world

/-- A callback argument delivers an object. For a key, the key object holds a handle that
was acquired from the certificate in question and is open. -/
def Delivers (store : CertStore) (key : Addr) (w : World) : ObjectCall → StoreObject → Prop
  | .cert data, .cert encoded => data = encoded
  | .pkey dataType reference handle, .key i =>
    dataType = "rsaEncryption" ∧ reference = key ∧
      ∃ h, handle = some h ∧ SysCall.acquirePrivateKey i h true ∈ w.trace ∧
        w.keys h = some (acquireResult store i).key
  | _, _ => False

structure Grows (w w' : World) : Prop where
  trace : w.trace <+: w'.trace
  keys : ∀ h, w.keys h ≠ none → w'.keys h = w.keys h

theorem Grows.refl (w : World) : Grows w w := ⟨List.prefix_rfl, fun _ _ => rfl⟩

theorem Grows.trans {u v w : World} (h : Grows u v) (k : Grows v w) : Grows u w :=
  ⟨h.trace.trans k.trace, fun b hb => by
    have hv := h.keys b hb
    exact (k.keys b (hv ▸ hb)).trans hv⟩

theorem grows_of_lt {w w' : World} (hw : Fresh w) (ht : w.trace <+: w'.trace)
    (hk : ∀ h, h < w.next → w'.keys h = w.keys h) : Grows w w' :=
  ⟨ht, fun b hb => by
    obtain ⟨k, hb⟩ := Option.ne_none_iff_exists'.mp hb
    exact hk b (hw.key_lt hb)⟩

theorem delivers_mono {store : CertStore} {key : Addr} {w w' : World} (h : Grows w w')
    {c : ObjectCall} {obj : StoreObject} (hd : Delivers store key w c obj) :
    Delivers store key w' c obj := by
  cases c <;> cases obj <;> simp only [Delivers] at hd ⊢
  · exact hd
  · obtain ⟨hty, href, b, hb, hmem, hkey⟩ := hd
    refine ⟨hty, href, b, hb, h.trace.subset hmem, ?_⟩
    rw [h.keys b (by rw [hkey]; exact Option.some_ne_none _), hkey]

/-- Moving the certificate cursor off a certificate takes that certificate off the queue. -/
theorem pending_certs_advance {ctx : StoreCtx} {i : ℕ} {cert : CertContext}
    (hi : ctx.prevCertCtx = some i) (hc : ctx.windowsCertificateStore[i]? = some cert)
    (eof : Bool) :
    pendingCerts ctx = cert :: pendingCerts { ctx with
      prevCertCtx := nextCert ctx.windowsCertificateStore (some i), certStoreEof := eof } := by
  obtain ⟨hlt, hget⟩ := List.getElem?_eq_some_iff.mp hc
  have hdrop := List.drop_eq_getElem_cons hlt
  simp only [pendingCerts, hi, hdrop, hget, List.cons.injEq, true_and]
  cases hn : nextCert ctx.windowsCertificateStore (some i) with
  | none => exact List.drop_eq_nil_of_le (next_cert_none.mp hn)
  | some j =>
    obtain ⟨rfl, _⟩ := next_cert_some.mp hn
    rfl

theorem pending_of_certs_done {ctx : StoreCtx} (h : ctx.prevCertCtx = none) :
    pending ctx = (pendingKeys ctx).map .key := by
  rw [pending, pendingCerts, h]
  rfl

theorem pending_keys_some {ctx : StoreCtx} {i : ℕ} (h : ctx.prevKeyCertCtx = some i) :
    pendingKeys ctx = i :: acceptedFrom ctx.windowsCertificateStore (i + 1) := by
  rw [pendingKeys, h]

theorem pending_nil_iff {s : Session} (hs : SessionInv s) :
    pending s.ctx = [] ↔ cngStoreEof s = true := by
  rw [cngStoreEof, hs.cert_eof, hs.key_eof, pending, certObjects, List.append_eq_nil_iff,
    List.map_eq_nil_iff, List.map_eq_nil_iff, pendingCerts, pendingKeys]
  cases hp : s.ctx.prevCertCtx with
  | none => cases s.ctx.prevKeyCertCtx <;> simp
  | some i => simp [Nat.not_le_of_lt (hs.cert_lt i hp)]

theorem SessionInv.grow {s : Session} (hs : SessionInv s) {s' : Session} (hctx : s'.ctx = s.ctx)
    (hf : Fresh s'.world) (ht : s.world.trace <+: s'.world.trace)
    (hd : ∀ p, p < s.world.next → s'.world.keydata p = s.world.keydata p)
    (hk : ∀ h, h < s.world.next → s'.world.keys h = s.world.keys h) : SessionInv s' := by
  obtain ⟨kd, hkd⟩ := hs.key_live
  have hkey := hd _ (hs.fresh.keydata_lt hkd)
  refine ⟨hf, ⟨kd, by rw [hctx, hkey, hkd]⟩, ?_, ?_, ?_, ?_, ?_⟩ <;> rw [hctx]
  · exact hs.cert_eof
  · exact hs.cert_lt
  · exact hs.key_eof
  · exact hs.key_lt
  · intro i hi
    obtain ⟨hacc, h, hh, hmem, hkeys⟩ := hs.key_holds i hi
    exact ⟨hacc, h, hkey.trans hh, ht.subset hmem, (hk h (hs.fresh.key_lt hkeys)).trans hkeys⟩

theorem object_cb_cases {o : CallbackResult} {s s' : Session} (h : objectCb o s = some s') :
    ∃ r w', (r = none ∧ w' = s.world ∨
        ∃ d, cngKeymgmtLoad d (some s.ctx.key) s.world = some (r, w')) ∧
      s' = { s with
        world := w'
        calls := s.calls ++ [.pkey "rsaEncryption" s.ctx.key
          ((s.world.keydata s.ctx.key).map KeyData.windowsKeyHandle)]
        loaded := s.loaded ++ (r.map (LoadedKey.mk s.ctx.prevKeyCertCtx)).toList } := by
  simp only [objectCb] at h
  split at h
  · cases h
    exact ⟨none, s.world, Or.inl ⟨rfl, rfl⟩, by simp⟩
  · rename_i d _
    split at h
    · cases h
    · rename_i w hload
      cases h
      exact ⟨none, w, Or.inr ⟨d, hload⟩, by simp⟩
    · rename_i p w hload
      cases h
      exact ⟨some p, w, Or.inr ⟨d, hload⟩, rfl⟩

theorem object_cb_defined (o : CallbackResult) {s : Session} (hs : SessionInv s) :
    ∃ s', objectCb o s = some s' := by
  obtain ⟨kd, hkd⟩ := hs.key_live
  simp only [objectCb]
  cases o.load with
  | none => exact ⟨_, rfl⟩
  | some d =>
    obtain ⟨r, w, hl⟩ := keymgmt_dup_defined (o := d) hs.fresh hkd
    simp only [cngKeymgmtLoad, hl]
    cases r <;> exact ⟨_, rfl⟩

theorem object_cb_inv {o : CallbackResult} {s s' : Session} (hs : SessionInv s)
    (h : objectCb o s = some s') :
    SessionInv s' ∧ s'.ctx = s.ctx ∧ Grows s.world s'.world := by
  obtain ⟨r, w', hw, rfl⟩ := object_cb_cases h
  rcases hw with ⟨_, rfl⟩ | ⟨d, hload⟩
  · exact ⟨hs.grow rfl hs.fresh List.prefix_rfl (fun _ _ => rfl) fun _ _ => rfl, rfl, .refl _⟩
  · obtain ⟨hf, _, ht, hd, hk⟩ := frame_keymgmt_dup hs.fresh hload
    exact ⟨hs.grow rfl hf ht hd hk, rfl, grows_of_lt hs.fresh ht hk⟩

/-- Only the certificate cursor and the key object have to be in order before the key
cursor advances; afterwards the whole session is. -/
theorem session_inv_advance {ctx : StoreCtx} {w : World} (hw : Fresh w) {kd : KeyData}
    (hkd : w.keydata ctx.key = some kd) (heof : ctx.certStoreEof = ctx.prevCertCtx.isNone)
    (hlt : ∀ i, ctx.prevCertCtx = some i → i < ctx.windowsCertificateStore.length)
    (calls : List ObjectCall) (loaded : List LoadedKey) :
    let k := loadAnotherPrivkeyFromStoreIntoContext ctx w
    SessionInv ⟨k.2.1, k.2.2, calls, loaded⟩ ∧ Grows w k.2.2 ∧
      k.2.1.key = ctx.key ∧ k.2.1.windowsCertificateStore = ctx.windowsCertificateStore ∧
      k.2.1.prevCertCtx = ctx.prevCertCtx ∧
      pendingKeys k.2.1 =
        acceptedFrom ctx.windowsCertificateStore (position ctx.prevKeyCertCtx) := by
  obtain ⟨hf, hframe, hcase⟩ := load_privkey_spec ctx w hw (hw.keydata_lt hkd)
  have hgrows := grows_of_lt hw hframe.trace hframe.keys
  simp only
  rcases hcase with ⟨ha, hctx, _, hd⟩ | ⟨i, ha, hctx, _, hi, hh, _⟩ <;> rw [hctx]
  · refine ⟨⟨hf, ⟨kd, ?_⟩, heof, hlt, rfl, by simp, by simp⟩, hgrows, rfl, rfl, rfl, ha.symm⟩
    rw [hd]
    exact hkd
  · obtain ⟨_, h, hkey, _⟩ := id hh
    refine ⟨⟨hf, ⟨⟨h⟩, hkey⟩, heof, hlt, rfl, ?_, ?_⟩, hgrows, rfl, rfl, rfl, ha.symm⟩
    · rintro _ ⟨rfl⟩
      exact hi
    · rintro _ ⟨rfl⟩
      exact hh

structure LoadStep (c : ObjectCall) (s s' : Session) : Prop where
  inv : SessionInv s'
  key : s'.ctx.key = s.ctx.key
  store : s'.ctx.windowsCertificateStore = s.ctx.windowsCertificateStore
  world : Grows s.world s'.world
  calls : s'.calls = s.calls ++ [c]

/-- A load with certificates left delivers the next one, whatever the callback returns. -/
theorem load_cert_step {s : Session} (hs : SessionInv s) (o : CallbackResult)
    (he : s.ctx.certStoreEof = false) :
    ∃ s' e, cngStoreLoad o s = some (1, s') ∧ LoadStep (.cert e) s s' ∧
      pending s.ctx = .cert e :: pending s'.ctx := by
  cases hp : s.ctx.prevCertCtx with
  | none =>
    have := hs.cert_eof
    simp [he, hp] at this
  | some i =>
    obtain ⟨cert, hcert⟩ : ∃ c, s.ctx.windowsCertificateStore[i]? = some c :=
      ⟨_, List.getElem?_eq_getElem (hs.cert_lt i hp)⟩
    let n := nextCert s.ctx.windowsCertificateStore (some i)
    let w' := s.world.emit (.enumCertificates (some i) n)
    let ctx' := { s.ctx with
      prevCertCtx := n, certStoreEof := if n.isNone then true else s.ctx.certStoreEof }
    refine ⟨{ s with calls := s.calls ++ [.cert cert.encoded], ctx := ctx', world := w' },
      cert.encoded, ?_, ⟨?_, rfl, rfl, ⟨List.prefix_append _ _, fun _ _ => rfl⟩, rfl⟩, ?_⟩
    · simp [cngStoreLoad, he, loadAnotherCert, hp, hcert, certEnumCertificatesInStore, ctx', w', n]
    · refine ⟨emit_fresh hs.fresh _, hs.key_live, ?_, ?_, hs.key_eof, hs.key_lt, ?_⟩
      · cases hn : n <;> simp [ctx', hn, he]
      · intro j hj
        obtain ⟨rfl, hlt⟩ := next_cert_some.mp hj
        exact hlt
      · intro j hj
        obtain ⟨hacc, h, hh, hmem, hkeys⟩ := hs.key_holds j hj
        exact ⟨hacc, h, hh, List.mem_append_left _ hmem, hkeys⟩
    · rw [pending, pending_certs_advance hp hcert]
      rfl

/-- With no certificate left, a load hands over the key object of the next key, and keeps
the key cursor where it is when the callback refuses. -/
theorem load_key_step {s : Session} (hs : SessionInv s) (o : CallbackResult)
    (he : s.ctx.certStoreEof = true) (hk : s.ctx.privKeyStoreEof = false) :
    ∃ ret s' c i rest, cngStoreLoad o s = some (ret, s') ∧ LoadStep c s s' ∧
      Delivers s.ctx.windowsCertificateStore s.ctx.key s'.world c (.key i) ∧
      pending s.ctx = .key i :: rest ∧
      if o.privKeyRet = 0 then ret = 0 ∧ s'.ctx = s.ctx else ret = 1 ∧ pending s'.ctx = rest := by
  have hcert : s.ctx.prevCertCtx = none := by
    simpa [he] using hs.cert_eof
  cases hp : s.ctx.prevKeyCertCtx with
  | none =>
    have := hs.key_eof
    simp [hk, hp] at this
  | some i =>
    obtain ⟨s₁, hcb⟩ := object_cb_defined o hs
    obtain ⟨hs₁, hctx₁, ht₁⟩ := object_cb_inv hs hcb
    obtain ⟨_, _, _, hs₁eq⟩ := object_cb_cases hcb
    have hcalls : s₁.calls = s.calls ++ [.pkey "rsaEncryption" s.ctx.key
        ((s.world.keydata s.ctx.key).map KeyData.windowsKeyHandle)] := by rw [hs₁eq]
    have hdel : Delivers s.ctx.windowsCertificateStore s.ctx.key s₁.world (.pkey "rsaEncryption"
        s.ctx.key ((s.world.keydata s.ctx.key).map KeyData.windowsKeyHandle)) (.key i) := by
      obtain ⟨_, h, hh, hmem, hkey⟩ := hs.key_holds i hp
      exact delivers_mono ht₁ ⟨rfl, rfl, h, by rw [hh]; rfl, hmem, hkey⟩
    have hpend : pending s.ctx = .key i ::
        (acceptedFrom s.ctx.windowsCertificateStore (i + 1)).map .key := by
      rw [pending_of_certs_done hcert, pending_keys_some hp]
      rfl
    by_cases hret : o.privKeyRet = 0
    · refine ⟨0, s₁, _, _, _, ?_, ⟨hs₁, by rw [hctx₁], by rw [hctx₁], ht₁, hcalls⟩, hdel, hpend, ?_⟩
      · simp [cngStoreLoad, loadAnotherPrivateKey, he, hk, hcb, hret]
      · rw [if_pos hret]
        exact ⟨rfl, hctx₁⟩
    · obtain ⟨kd, hkd⟩ := hs₁.key_live
      obtain ⟨hs₂, ht₂, hkey₂, hst₂, hc₂, hpk₂⟩ := session_inv_advance hs₁.fresh hkd hs₁.cert_eof
        hs₁.cert_lt s₁.calls s₁.loaded
      rw [hctx₁] at hs₂ ht₂ hkey₂ hst₂ hc₂ hpk₂
      refine ⟨1, _, _, _, _, ?_, ⟨hs₂, hkey₂, hst₂, ht₁.trans ht₂, hcalls⟩,
        delivers_mono ht₂ hdel, hpend, ?_⟩
      · simp [cngStoreLoad, loadAnotherPrivateKey, he, hk, hcb, hret, hctx₁]
      · rw [if_neg hret]
        refine ⟨rfl, ?_⟩
        rw [hp] at hpk₂
        rw [pending_of_certs_done (hc₂.trans hcert), hpk₂]
        rfl

theorem load_at_end {s : Session} (he : cngStoreEof s = true) (o : CallbackResult) :
    cngStoreLoad o s = some (0, s) := by
  obtain ⟨hc, hk⟩ := (Bool.and_eq_true _ _).mp he
  simp [cngStoreLoad, hc, hk]

/-- Every load delivers the head of the queue until nothing is left. -/
theorem loads_deliver (os : List CallbackResult) (hos : ∀ o ∈ os, o.privKeyRet ≠ 0)
    {s : Session} (hs : SessionInv s) :
    ∃ s' new, loads s os = some s' ∧ SessionInv s' ∧ Grows s.world s'.world ∧
      s'.calls = s.calls ++ new ∧ pending s'.ctx = (pending s.ctx).drop os.length ∧
      List.Forall₂ (Delivers s.ctx.windowsCertificateStore s.ctx.key s'.world) new
        ((pending s.ctx).take os.length) := by
  induction os generalizing s with
  | nil => exact ⟨s, [], rfl, hs, .refl _, by simp, rfl, List.Forall₂.nil⟩
  | cons o os ih =>
    have hos' : ∀ x ∈ os, x.privKeyRet ≠ 0 := fun x hx => hos x (List.mem_cons_of_mem _ hx)
    cases heof : cngStoreEof s with
    | true =>
      obtain ⟨s', new, hl, hs', ht, hcalls, hp, hd⟩ := ih hos' hs
      rw [(pending_nil_iff hs).mpr heof, List.take_nil] at hd
      rw [(pending_nil_iff hs).mpr heof, List.drop_nil] at hp
      refine ⟨s', new, ?_, hs', ht, hcalls, ?_, ?_⟩
      · simp only [loads, load_at_end heof, hl]
      · rw [hp, (pending_nil_iff hs).mpr heof, List.drop_nil]
      · rwa [(pending_nil_iff hs).mpr heof, List.take_nil]
    | false =>
      -- one object is taken off the queue, whichever cursor it comes from
      have hstep : ∃ s₁ c obj, cngStoreLoad o s = some (1, s₁) ∧ LoadStep c s s₁ ∧
          Delivers s.ctx.windowsCertificateStore s.ctx.key s₁.world c obj ∧
          pending s.ctx = obj :: pending s₁.ctx := by
        cases hc : s.ctx.certStoreEof with
        | false =>
          obtain ⟨s₁, e, hl, hs₁, hp⟩ := load_cert_step hs o hc
          exact ⟨s₁, _, .cert e, hl, hs₁, rfl, hp⟩
        | true =>
          have hk : s.ctx.privKeyStoreEof = false := by simpa [cngStoreEof, hc] using heof
          obtain ⟨ret, s₁, c, i, rest, hl, hs₁, hd, hp, hret⟩ := load_key_step hs o hc hk
          rw [if_neg (hos o List.mem_cons_self)] at hret
          obtain ⟨rfl, rfl⟩ := hret
          exact ⟨s₁, c, _, hl, hs₁, hd, hp⟩
      obtain ⟨s₁, c, obj, hl, hs₁, hd, hp⟩ := hstep
      obtain ⟨s', new, hl', hs', ht', hcalls', hp', hd'⟩ := ih hos' hs₁.inv
      rw [hs₁.key, hs₁.store] at hd'
      refine ⟨s', c :: new, ?_, hs', hs₁.world.trans ht', ?_, ?_, ?_⟩
      · simp only [loads, hl, hl']
      · rw [hcalls', hs₁.calls, List.append_assoc, List.singleton_append]
      · rw [hp', hp, List.length_cons, List.drop_succ_cons]
      · rw [hp, List.length_cons, List.take_succ_cons]
        exact List.Forall₂.cons (delivers_mono ht' hd) hd'

theorem store_open_cases {o : OpenCalls} {provctx : Option Addr} {uri : Option (List Char)}
    {w w' : World} {ctx : StoreCtx} (h : cngStoreOpen o provctx uri w = some (some ctx, w')) :
    ∃ name store, parseUriFromStoreOpen (uri.getD []) none = some name ∧
      o.certOpenSystemStore name = some store ∧
      let c := loadAnotherCertFromStoreIntoContext
        ⟨store, none, false, none, w.next, false, some name⟩ w.addKeydata
      (loadAnotherPrivkeyFromStoreIntoContext c.1 c.2).2 = (ctx, w') := by
  unfold cngStoreOpen at h
  split at h
  · cases h
  split at h
  · cases h
  split at h
  · cases h
  rename_i key w₁ hnew
  have hnew' : key = w.next ∧ w₁ = w.addKeydata := by
    unfold cngKeymgmtNew at hnew
    split at hnew <;> cases hnew
    exact ⟨rfl, rfl⟩
  obtain ⟨rfl, rfl⟩ := hnew'
  split at h
  · obtain ⟨v, _, hv⟩ := Option.map_eq_some_iff.mp h
    cases hv
  rename_i name hname
  split at h
  · obtain ⟨v, _, hv⟩ := Option.map_eq_some_iff.mp h
    cases hv
  rename_i store hstore
  cases h
  exact ⟨name, store, hname, hstore, rfl⟩

theorem store_open_spec {o : OpenCalls} {provctx : Option Addr} {uri : Option (List Char)}
    {w w' : World} {ctx : StoreCtx} (hw : Fresh w)
    (h : cngStoreOpen o provctx uri w = some (some ctx, w')) :
    ∃ name, parseUriFromStoreOpen (uri.getD []) none = some name ∧
      o.certOpenSystemStore name = some ctx.windowsCertificateStore ∧
      SessionInv (Session.start ctx w') ∧ pending ctx = contents ctx.windowsCertificateStore := by
  obtain ⟨name, store, hname, hstore, hk⟩ := store_open_cases h
  let c := loadAnotherCertFromStoreIntoContext
    ⟨store, none, false, none, w.next, false, some name⟩ w.addKeydata
  have hkd : c.2.keydata c.1.key = some ⟨0⟩ := Function.update_self _ _ _
  have hf : Fresh c.2 := emit_fresh hw.addKeydata _
  obtain ⟨hs, _, _, hst, hc, hp⟩ := session_inv_advance hf hkd rfl
    (fun i hi => (next_cert_some.mp hi).1 ▸ (next_cert_some.mp hi).2) [] []
  simp only [c, hk] at hs hst hc hp
  have hst' : ctx.windowsCertificateStore = store := hst
  refine ⟨name, hname, hst'.symm ▸ hstore, hs, ?_⟩
  have hcerts : pendingCerts ctx = store := by
    rw [pendingCerts, hc, hst']
    change (match nextCert store none with | none => [] | some i => store.drop i) = store
    cases hn : nextCert store none with
    | none => exact (List.eq_nil_of_length_eq_zero (Nat.le_zero.mp (next_cert_none.mp hn))).symm
    | some i =>
      obtain ⟨rfl, _⟩ := next_cert_some.mp hn
      rfl
  rw [pending, hcerts, hp, hst']
  rfl

theorem open_session_delivers {o : OpenCalls} {provctx : Option Addr} {uri : Option (List Char)}
    {w w' : World} {ctx : StoreCtx} (hw : Fresh w)
    (hopen : cngStoreOpen o provctx uri w = some (some ctx, w'))
    {os : List CallbackResult} (hos : ∀ o ∈ os, o.privKeyRet = 1) :
    ∃ s, loads (Session.start ctx w') os = some s ∧
      List.Forall₂ (Delivers ctx.windowsCertificateStore ctx.key s.world) s.calls
        ((contents ctx.windowsCertificateStore).take os.length) ∧
      (cngStoreEof s = true ↔ (contents ctx.windowsCertificateStore).length ≤ os.length) := by
  obtain ⟨_, _, _, hs, hp⟩ := store_open_spec hw hopen
  have hos' : ∀ o ∈ os, o.privKeyRet ≠ 0 := fun o ho => by rw [hos o ho]; decide
  obtain ⟨s, new, hl, hs', _, hcalls, hrest, hd⟩ := loads_deliver os hos' hs
  have hrest' : pending s.ctx = (contents ctx.windowsCertificateStore).drop os.length := by
    rw [← hp]; exact hrest
  refine ⟨s, hl, ?_, ?_⟩
  · rw [← hp, hcalls]
    exact hd
  · rw [← pending_nil_iff hs', hrest', List.drop_eq_nil_iff]

/-- A store session enumerates exactly: each load delivers the next object of the store,
certificates first, each once, and at the end both cursors stay where they are. -/
theorem cng_store_enumeration_exact {o : OpenCalls} {provctx : Option Addr}
    {uri : Option (List Char)} {w w' : World} {ctx : StoreCtx} (hw : Fresh w)
    (hopen : cngStoreOpen o provctx uri w = some (some ctx, w'))
    (os : List CallbackResult) (hos : ∀ o ∈ os, o.privKeyRet = 1) :
    ∃ name store, parseUriFromStoreOpen (uri.getD []) none = some name ∧
      o.certOpenSystemStore name = some store ∧
      ∃ s, loads (Session.start ctx w') os = some s ∧
        List.Forall₂ (Delivers store ctx.key s.world) s.calls ((contents store).take os.length) ∧
        (cngStoreEof s = true ↔ (contents store).length ≤ os.length) ∧
        (cngStoreEof s = true → ∀ o, cngStoreLoad o s = some (0, s)) := by
  obtain ⟨name, hname, hstore, _, _⟩ := store_open_spec hw hopen
  obtain ⟨s, hl, hd, heof⟩ := open_session_delivers hw hopen hos
  exact ⟨name, _, hname, hstore, s, hl, hd, heof, fun he o => load_at_end he o⟩

def sampleStore : CertStore :=
  [⟨[1], ⟨0, ⟨0, [], 0⟩, 0, 0⟩⟩, ⟨[2], ⟨winTrue, ⟨1, [7], 0⟩, certNcryptKeySpec, winTrue⟩⟩]

def sampleOpen : OpenCalls := ⟨true, true, fun _ => some sampleStore⟩

def sampleUri : List Char := "cng://MY".toList

theorem cng_store_enumeration_exact_sample : ∃ ctx w',
    cngStoreOpen sampleOpen (some 0) (some sampleUri) initial = some (some ctx, w') ∧
    ∃ name store, parseUriFromStoreOpen ((some sampleUri).getD []) none = some name ∧
      sampleOpen.certOpenSystemStore name = some store ∧
      ∃ s, loads (Session.start ctx w') [⟨1, none⟩, ⟨1, none⟩, ⟨1, none⟩] = some s ∧
        List.Forall₂ (Delivers store ctx.key s.world) s.calls ((contents store).take 3) ∧
        (cngStoreEof s = true ↔ (contents store).length ≤ 3) ∧
        (cngStoreEof s = true → ∀ o, cngStoreLoad o s = some (0, s)) :=
  ⟨_, _, rfl, cng_store_enumeration_exact initial_fresh
    (show cngStoreOpen sampleOpen (some 0) (some sampleUri) initial = some (some _, _) from rfl)
    [⟨1, none⟩, ⟨1, none⟩, ⟨1, none⟩] (by decide)⟩

/-- What is left of a queue after some loads: a key stays until its callback accepts it. -/
def remaining : List StoreObject → List CallbackResult → List StoreObject
  | .cert _ :: q, _ :: os => remaining q os
  | .key i :: q, o :: os =>
    if o.privKeyRet = 0 then remaining (.key i :: q) os else remaining q os
  | q, _ => q

theorem remaining_nil (os : List CallbackResult) : remaining [] os = [] := by
  unfold remaining
  rfl

/-- Loads take certificates first, and then one key for each callback that accepts. -/
theorem remaining_eq (certs : List CertContext) (keys : List ℕ) (os : List CallbackResult) :
    remaining (certObjects certs ++ keys.map .key) os =
      certObjects (certs.drop os.length) ++ (keys.drop
        ((os.drop certs.length).countP fun o => o.privKeyRet ≠ 0)).map .key := by
  induction certs generalizing os with
  | nil =>
    simp only [certObjects, List.map_nil, List.nil_append, List.length_nil, List.drop_zero,
      List.drop_nil]
    induction os generalizing keys with
    | nil => cases keys <;> rfl
    | cons o os ih =>
      cases keys with
      | nil => simp [remaining_nil]
      | cons k keys =>
        rw [List.map_cons, remaining, List.countP_cons]
        by_cases hr : o.privKeyRet = 0
        · have hrest := ih (k :: keys)
          rw [List.map_cons] at hrest
          rw [if_pos hr, hrest]
          simp [hr]
        · rw [if_neg hr, ih keys]
          simp [hr]
  | cons c certs ih =>
    cases os with
    | nil => simp [certObjects, remaining]
    | cons o os =>
      have hrest := ih os
      simpa [certObjects, remaining] using hrest

/-- Loads empty a queue exactly when there are enough of them, those after the
certificates counted only where the callback accepts. -/
theorem remaining_eq_nil (certs : List CertContext) (keys : List ℕ) (os : List CallbackResult) :
    remaining (certObjects certs ++ keys.map .key) os = [] ↔
      certs.length ≤ os.length ∧
        keys.length ≤ (os.drop certs.length).countP fun o => o.privKeyRet ≠ 0 := by
  rw [remaining_eq, List.append_eq_nil_iff, certObjects, List.map_eq_nil_iff, List.map_eq_nil_iff,
    List.drop_eq_nil_iff, List.drop_eq_nil_iff]

/-- The sessions refine the queue, whatever the callbacks return. -/
theorem loads_refine_queue (os : List CallbackResult) {s : Session} (hs : SessionInv s) :
    ∃ s', loads s os = some s' ∧ SessionInv s' ∧
      pending s'.ctx = remaining (pending s.ctx) os := by
  induction os generalizing s with
  | nil =>
    refine ⟨s, rfl, hs, ?_⟩
    cases hp : pending s.ctx with
    | nil => rfl
    | cons obj q => cases obj <;> rfl
  | cons o os ih =>
    cases hc : s.ctx.certStoreEof with
    | false =>
      obtain ⟨s₁, e, hl, hstep, hp⟩ := load_cert_step hs o hc
      obtain ⟨s', hl', hs', hp'⟩ := ih hstep.inv
      exact ⟨s', by simp only [loads, hl, hl'], hs', by rw [hp', hp, remaining]⟩
    | true =>
      cases hk : s.ctx.privKeyStoreEof with
      | false =>
        obtain ⟨ret, s₁, c, i, rest, hl, hstep, _, hp, hret⟩ := load_key_step hs o hc hk
        obtain ⟨s', hl', hs', hp'⟩ := ih hstep.inv
        refine ⟨s', by simp only [loads, hl, hl'], hs', ?_⟩
        rw [hp', hp, remaining]
        split at hret
        · rename_i hz
          rw [if_pos hz, hret.2, hp]
        · rename_i hz
          rw [if_neg hz, hret.2]
      | true =>
        have he : cngStoreEof s = true := by simp [cngStoreEof, hc, hk]
        obtain ⟨s', hl', hs', hp'⟩ := ih hs
        refine ⟨s', by simp only [loads, load_at_end he, hl'], hs', ?_⟩
        rw [hp', (pending_nil_iff hs).mpr he, remaining_nil, remaining_nil]

theorem store_load_cases {o : CallbackResult} {s s' : Session} {ret : ℤ}
    (h : cngStoreLoad o s = some (ret, s')) :
    (cngStoreEof s = true ∧ s' = s) ∨
    (∃ i cert, s.ctx.prevCertCtx = some i ∧ s.ctx.windowsCertificateStore[i]? = some cert ∧
      s' = { s with
        calls := s.calls ++ [.cert cert.encoded]
        ctx := { s.ctx with
          prevCertCtx := nextCert s.ctx.windowsCertificateStore (some i)
          certStoreEof := if (nextCert s.ctx.windowsCertificateStore (some i)).isNone then true
            else s.ctx.certStoreEof }
        world := s.world.emit
          (.enumCertificates (some i) (nextCert s.ctx.windowsCertificateStore (some i))) }) ∨
    ∃ s₁, s.ctx.privKeyStoreEof = false ∧ objectCb o s = some s₁ ∧
      (s' = s₁ ∨
        s' = { s₁ with
          ctx := (loadAnotherPrivkeyFromStoreIntoContext s₁.ctx s₁.world).2.1
          world := (loadAnotherPrivkeyFromStoreIntoContext s₁.ctx s₁.world).2.2 }) := by
  unfold cngStoreLoad at h
  split at h
  · obtain ⟨v, hv, hret⟩ := Option.map_eq_some_iff.mp h
    cases hret
    unfold loadAnotherCert at hv
    split at hv
    · cases hv
    · rename_i cert hcert
      cases hv
      obtain ⟨i, hi, hget⟩ := Option.bind_eq_some_iff.mp hcert
      right; left
      refine ⟨i, cert, hi, hget, ?_⟩
      simp only [certEnumCertificatesInStore, hi]
  · rename_i hc
    split at h
    · rename_i hk
      right; right
      simp only [Bool.not_eq_true] at hk
      unfold loadAnotherPrivateKey at h
      rw [hk] at h
      simp only [Bool.false_eq_true, if_false] at h
      split at h
      · cases h
      · rename_i s₁ hcb
        refine ⟨s₁, hk, hcb, ?_⟩
        split at h <;> cases h
        · exact Or.inl rfl
        · exact Or.inr rfl
    · rename_i hk
      cases h
      left
      simp only [not_not] at hc hk
      exact ⟨by simp [cngStoreEof, hc, hk], rfl⟩

theorem store_load_inv {s : Session} (hs : SessionInv s) (o : CallbackResult) :
    ∃ ret s', cngStoreLoad o s = some (ret, s') ∧ SessionInv s' ∧
      s'.ctx.key = s.ctx.key ∧
      s'.ctx.windowsCertificateStore = s.ctx.windowsCertificateStore := by
  cases hc : s.ctx.certStoreEof with
  | false =>
    obtain ⟨s', _, hl, hstep, _⟩ := load_cert_step hs o hc
    exact ⟨1, s', hl, hstep.inv, hstep.key, hstep.store⟩
  | true =>
    cases hk : s.ctx.privKeyStoreEof with
    | false =>
      obtain ⟨ret, s', _, _, _, hl, hstep, _⟩ := load_key_step hs o hc hk
      exact ⟨ret, s', hl, hstep.inv, hstep.key, hstep.store⟩
    | true => exact ⟨0, s, load_at_end (by simp [cngStoreEof, hc, hk]) o, hs, rfl, rfl⟩

/-- What every load preserves holds after any number of loads, whatever the callbacks do. -/
theorem loads_invariant {P : Session → Prop}
    (hstep : ∀ o s ret s', SessionInv s → P s → cngStoreLoad o s = some (ret, s') → P s')
    (os : List CallbackResult) {s : Session} (hs : SessionInv s) (hp : P s) :
    ∃ s', loads s os = some s' ∧ SessionInv s' ∧ s'.ctx.key = s.ctx.key ∧
      s'.ctx.windowsCertificateStore = s.ctx.windowsCertificateStore ∧ P s' := by
  induction os generalizing s with
  | nil => exact ⟨s, rfl, hs, rfl, rfl, hp⟩
  | cons o os ih =>
    obtain ⟨ret, s₁, hl, hs₁, hkey, hst⟩ := store_load_inv hs o
    obtain ⟨s', hl', hs', hkey', hst', hp'⟩ := ih hs₁ (hstep o s ret s₁ hs hp hl)
    exact ⟨s', by simp only [loads, hl, hl'], hs', hkey'.trans hkey, hst'.trans hst, hp'⟩

/-- A loaded key object stands for the certificate under the key cursor when it was
delivered, and shares neither address nor handle with the store's key object. -/
structure LoadedInv (store : CertStore) (key : Addr) (w : World) (l : LoadedKey) : Prop where
  standing : ∃ i h, l.cert = some i ∧ ¬ Rejected (acquireResult store i) ∧
    w.keydata l.keydata = some ⟨h⟩ ∧ w.keys h = some (acquireResult store i).key ∧
    w.keydata key ≠ some ⟨h⟩
  apart : l.keydata ≠ key

theorem LoadedInv.frame {store : CertStore} {key : Addr} {w w' : World} {l : LoadedKey}
    (hw : Fresh w) (hl : LoadedInv store key w l)
    (hd : ∀ p, p < w.next → p ≠ key → w'.keydata p = w.keydata p)
    (hk : ∀ h, h < w.next → w.keydata key ≠ some ⟨h⟩ →
      w'.keys h = w.keys h ∧ w'.keydata key ≠ some ⟨h⟩) : LoadedInv store key w' l := by
  obtain ⟨i, h, hi, hacc, hkd, hkeys, hne⟩ := hl.standing
  obtain ⟨hkeys', hne'⟩ := hk h (hw.key_lt hkeys) hne
  exact ⟨⟨i, h, hi, hacc, (hd _ (hw.keydata_lt hkd) hl.apart).trans hkd,
    hkeys'.trans hkeys, hne'⟩, hl.apart⟩

/-- The key cursor only puts younger handles into the store's key object. -/
theorem loaded_inv_advance {ctx : StoreCtx} {w : World} {l : LoadedKey} (hw : Fresh w)
    (hk : ctx.key < w.next) (hl : LoadedInv ctx.windowsCertificateStore ctx.key w l) :
    LoadedInv ctx.windowsCertificateStore ctx.key
      (loadAnotherPrivkeyFromStoreIntoContext ctx w).2.2 l := by
  obtain ⟨_, hframe, hcase⟩ := load_privkey_spec ctx w hw hk
  refine hl.frame hw (fun p _ hp => hframe.keydata p hp) fun h hh hne =>
    ⟨hframe.keys h hh, fun he => ?_⟩
  rcases hcase with ⟨_, _, _, hd⟩ | ⟨_, _, _, _, _, _, hge⟩
  · rw [hd] at he
    exact hne he
  · exact absurd (hge h he) (Nat.not_le_of_lt hh)

/-- Loading inside the callback gives a key object that stands for the certificate under
the key cursor, and leaves those loaded before alone. -/
theorem loaded_inv_callback {o : CallbackResult} {s s' : Session} (hs : SessionInv s)
    (hk : s.ctx.privKeyStoreEof = false) (h : objectCb o s = some s')
    (hl : ∀ l ∈ s.loaded, LoadedInv s.ctx.windowsCertificateStore s.ctx.key s.world l) :
    ∀ l ∈ s'.loaded, LoadedInv s.ctx.windowsCertificateStore s.ctx.key s'.world l := by
  obtain ⟨kd, hkd⟩ := hs.key_live
  have hlt := hs.fresh.keydata_lt hkd
  obtain ⟨r, w', hw, rfl⟩ := object_cb_cases h
  intro l hmem
  rcases List.mem_append.mp hmem with hold | hnew
  · rcases hw with ⟨_, rfl⟩ | ⟨d, hload⟩
    · exact hl l hold
    · obtain ⟨_, _, _, hd, hkeys⟩ := frame_keymgmt_dup hs.fresh hload
      refine (hl l hold).frame hs.fresh (fun p hp _ => hd p hp) fun h hh hne =>
        ⟨hkeys h hh, fun he => hne ?_⟩
      rwa [← hd _ hlt]
  · rcases hw with ⟨rfl, _⟩ | ⟨d, hload⟩
    · cases hnew
    rcases keymgmt_dup_cases hs.fresh hload with ⟨rfl, _⟩ | ⟨p, kd', k, hp, hkd', hk', rfl, rfl⟩
    · cases hnew
    cases hp
    obtain ⟨i, hi⟩ : ∃ i, s.ctx.prevKeyCertCtx = some i := by
      cases hc : s.ctx.prevKeyCertCtx with
      | none =>
        have := hs.key_eof
        simp [hk, hc] at this
      | some i => exact ⟨i, rfl⟩
    obtain ⟨hacc, h, hh, _, hkeys⟩ := hs.key_holds i hi
    obtain rfl : kd' = ⟨h⟩ := Option.some.inj (hkd'.symm.trans hh)
    have hsome : k = (acquireResult s.ctx.windowsCertificateStore i).key :=
      Option.some.inj (hk'.symm.trans hkeys)
    obtain rfl : l = ⟨some i, s.world.next⟩ := by simpa [hi] using hnew
    refine ⟨⟨i, s.world.next + 1, rfl, hacc, by simp, by simp [hsome], ?_⟩, hlt.ne'⟩
    intro he
    have hold : h = s.world.next + 1 := by simpa [Function.update_of_ne hlt.ne, hh] using he
    exact (Nat.lt_succ_of_lt (hs.fresh.key_lt hkeys)).ne hold

theorem loaded_inv_load {o : CallbackResult} {s s' : Session} {ret : ℤ} (hs : SessionInv s)
    (hl : ∀ l ∈ s.loaded, LoadedInv s.ctx.windowsCertificateStore s.ctx.key s.world l)
    (h : cngStoreLoad o s = some (ret, s')) :
    ∀ l ∈ s'.loaded, LoadedInv s'.ctx.windowsCertificateStore s'.ctx.key s'.world l := by
  rcases store_load_cases h with ⟨_, rfl⟩ | ⟨i, cert, _, _, rfl⟩ | ⟨s₁, hk, hcb, hs'⟩
  · exact hl
  · exact fun l hmem => (hl l hmem).frame hs.fresh (fun _ _ _ => rfl) fun _ _ hne => ⟨rfl, hne⟩
  · have hl₁ := loaded_inv_callback hs hk hcb hl
    obtain ⟨hs₁, hctx, _⟩ := object_cb_inv hs hcb
    rw [← hctx] at hl₁
    rcases hs' with rfl | rfl
    · exact hl₁
    · obtain ⟨kd, hkd⟩ := hs₁.key_live
      have hlt := hs₁.fresh.keydata_lt hkd
      obtain ⟨_, _, hcase⟩ := load_privkey_spec s₁.ctx s₁.world hs₁.fresh hlt
      intro l hmem
      have := loaded_inv_advance hs₁.fresh hlt (hl₁ l hmem)
      rcases hcase with ⟨_, hc, _⟩ | ⟨_, _, hc, _⟩ <;> simp only [hc] <;> exact this

theorem store_close_defined {s : Session} (hs : SessionInv s) (c : ℤ) :
    ∃ ret s', cngStoreClose c s = some (ret, s') ∧ s'.loaded = s.loaded ∧
      ((ret = 0 ∧ c ≠ winTrue ∧ s' = s) ∨
        ∃ kd, ret = 1 ∧ c = winTrue ∧ s.world.keydata s.ctx.key = some kd ∧
          s' = { s with world := ((s.world.emit .closeStore).freeObject
            (some kd.windowsKeyHandle)).setKeydata s.ctx.key none }) := by
  obtain ⟨kd, hkd⟩ := hs.key_live
  unfold cngStoreClose
  split
  · rename_i hc
    exact ⟨0, s, rfl, rfl, Or.inl ⟨rfl, hc, rfl⟩⟩
  · rename_i hc
    have hfree : cngKeymgmtFree (some s.ctx.key) (s.world.emit .closeStore) =
        some (((s.world.emit .closeStore).freeObject (some kd.windowsKeyHandle)).setKeydata
          s.ctx.key none) := by
      simp [cngKeymgmtFree, hkd]
    exact ⟨1, _, congrArg (Option.map _) hfree, rfl, Or.inr ⟨kd, rfl, not_not.mp hc, hkd, rfl⟩⟩

theorem loaded_inv_close {s s' : Session} {c ret : ℤ} (hs : SessionInv s) {l : LoadedKey}
    (hl : LoadedInv s.ctx.windowsCertificateStore s.ctx.key s.world l)
    (h : cngStoreClose c s = some (ret, s')) :
    LoadedInv s.ctx.windowsCertificateStore s.ctx.key s'.world l := by
  obtain ⟨ret', s'', hclose, _, hcase⟩ := store_close_defined hs c
  cases hclose.symm.trans h
  rcases hcase with ⟨_, _, rfl⟩ | ⟨kd, _, _, hkd, rfl⟩
  · exact hl
  · refine hl.frame hs.fresh (fun p _ hp => Function.update_of_ne hp _ _) fun h _ hne => ⟨?_, ?_⟩
    · have hh : h ≠ kd.windowsKeyHandle := fun he => hne (by rw [hkd, he])
      simp [hh]
    · simp

/-- OSSL_KEYMGMT_SELECT_PUBLIC_KEY -/
def selectPublicKey : ℕ := 2

def Exports (reply : ExportReply) (pk : RsaPublicKey) : Prop :=
  ∃ e n : BnParam, reply.calls = [some [e, n]] ∧ e.key = "e" ∧ n.key = "n" ∧
    e.value = pk.e ∧ n.value = pk.n

/-- Exporting a loaded key gives the public key of its certificate, when the public key
blob of a certificate's private key is that of the certificate. -/
theorem loaded_key_exports {blobs : PublicBlobs} {certKey : CertContext → RsaPublicKey}
    {store : CertStore} {key : Addr} {w : World} {l : LoadedKey}
    (hcert : ∀ cert ∈ store, ¬ Rejected cert.acquire → ∀ blob, blobs cert.acquire.key = some blob →
      blobPublicKey blob = some (certKey cert))
    (hl : LoadedInv store key w l) :
    ∃ i cert, l.cert = some i ∧ store[i]? = some cert ∧ ∀ exp reply,
      cngKeymgmtExport blobs exp (some l.keydata) selectPublicKey w = some reply →
      reply.ret ≠ 0 → Exports reply (certKey cert) := by
  obtain ⟨i, h, hi, hacc, hkd, hkeys, _⟩ := hl.standing
  obtain ⟨cert, hget⟩ : ∃ cert, store[i]? = some cert := by
    cases hg : store[i]? with
    | some cert => exact ⟨cert, rfl⟩
    | none => exact absurd (Or.inl (by simp [acquireResult, hg, winTrue])) hacc
  have hres : acquireResult store i = cert.acquire := by simp [acquireResult, hget]
  rw [hres] at hacc hkeys
  exact ⟨i, cert, hi, hget, fun exp reply hexp hret => export_public_values hkd hkeys
    (hcert cert (List.mem_of_getElem? hget) hacc) (by decide) hexp hret⟩

/-- Whatever the callbacks do, every key object loaded during a session exports the public
key of the certificate it was delivered for, as long as the session lasts and after. -/
theorem cng_store_key_round_trip {o : OpenCalls} {provctx : Option Addr}
    {uri : Option (List Char)} {w w' : World} {ctx : StoreCtx} (hw : Fresh w)
    (hopen : cngStoreOpen o provctx uri w = some (some ctx, w'))
    (blobs : PublicBlobs) (certKey : CertContext → RsaPublicKey)
    (hcert : ∀ cert ∈ ctx.windowsCertificateStore, ¬ Rejected cert.acquire →
      ∀ blob, blobs cert.acquire.key = some blob → blobPublicKey blob = some (certKey cert))
    (os : List CallbackResult) (c : ℤ) :
    ∃ s ret s', loads (Session.start ctx w') os = some s ∧ cngStoreClose c s = some (ret, s') ∧
      s'.loaded = s.loaded ∧
      ∀ l ∈ s.loaded, ∃ i cert, l.cert = some i ∧ ctx.windowsCertificateStore[i]? = some cert ∧
        ∀ v, v = s.world ∨ v = s'.world → ∀ exp reply,
          cngKeymgmtExport blobs exp (some l.keydata) selectPublicKey v = some reply →
          reply.ret ≠ 0 → Exports reply (certKey cert) := by
  obtain ⟨_, _, _, hs₀, _⟩ := store_open_spec hw hopen
  obtain ⟨s, hl, hs, hkey, hst, hloaded⟩ := loads_invariant
    (P := fun s => ∀ l ∈ s.loaded, LoadedInv s.ctx.windowsCertificateStore s.ctx.key s.world l)
    (fun _ _ _ _ hs hp h => loaded_inv_load hs hp h) os hs₀ (fun l hmem => nomatch hmem)
  obtain ⟨ret, s', hclose, hsame, _⟩ := store_close_defined hs c
  have hstore : s.ctx.windowsCertificateStore = ctx.windowsCertificateStore := hst
  rw [← hstore] at hcert ⊢
  refine ⟨s, ret, s', hl, hclose, hsame, fun l hmem => ?_⟩
  obtain ⟨i, cert, hi, hget, hexp⟩ := loaded_key_exports hcert (hloaded l hmem)
  obtain ⟨j, cert', hj, hget', hexp'⟩ :=
    loaded_key_exports hcert (loaded_inv_close hs (hloaded l hmem) hclose)
  obtain rfl : i = j := Option.some.inj (hi.symm.trans hj)
  obtain rfl : cert = cert' := Option.some.inj (hget.symm.trans hget')
  refine ⟨i, cert, hi, hget, fun v hv => ?_⟩
  rcases hv with rfl | rfl
  · exact hexp
  · exact hexp'

def sampleBlob : List UInt8 :=
  [82, 83, 65, 49, 6, 0, 0, 0, 1, 0, 0, 0, 1, 0, 0, 0, 0, 0, 0, 0, 0, 0, 0, 0, 3, 33]

def sampleDup : DupCalls := ⟨true, ⟨⟨0, 4⟩, ⟨0, 8⟩, ⟨0, 2⟩, true, ⟨0, 2⟩, 0⟩⟩

theorem cng_store_key_round_trip_sample : ∃ ctx w',
    cngStoreOpen sampleOpen (some 0) (some sampleUri) initial = some (some ctx, w') ∧
    ∃ s ret s', loads (Session.start ctx w') [⟨1, none⟩, ⟨1, none⟩, ⟨1, some sampleDup⟩] = some s ∧
      cngStoreClose winTrue s = some (ret, s') ∧ s'.loaded = s.loaded ∧
      ∀ l ∈ s.loaded, ∃ i cert, l.cert = some i ∧ ctx.windowsCertificateStore[i]? = some cert ∧
        ∀ v, v = s.world ∨ v = s'.world → ∀ exp reply,
          cngKeymgmtExport (fun _ => some sampleBlob) exp (some l.keydata) selectPublicKey v =
            some reply →
          reply.ret ≠ 0 → Exports reply ⟨33, 3⟩ :=
  ⟨_, _, rfl, cng_store_key_round_trip initial_fresh
    (show cngStoreOpen sampleOpen (some 0) (some sampleUri) initial = some (some _, _) from rfl)
    (fun _ => some sampleBlob) (fun _ => ⟨33, 3⟩)
    (fun _ _ _ _ hb => by cases hb; decide) [⟨1, none⟩, ⟨1, none⟩, ⟨1, some sampleDup⟩] winTrue⟩

-- the key loaded in such a session is really exported
example : ((cngStoreOpen sampleOpen (some 0) (some sampleUri) initial).bind fun r =>
    r.1.bind fun ctx =>
      (loads (Session.start ctx r.2) [⟨1, none⟩, ⟨1, none⟩, ⟨1, some sampleDup⟩]).bind fun s =>
        s.loaded.head?.bind fun l => (cngStoreClose winTrue s).bind fun r =>
          cngKeymgmtExport (fun _ => some sampleBlob) ⟨0, true, 0, true, true, 1⟩
            (some l.keydata) selectPublicKey r.2.world) =
    some ⟨1, [some [⟨"e", [3]⟩, ⟨"n", [33]⟩]]⟩ := by decide

end CngStoreSession
