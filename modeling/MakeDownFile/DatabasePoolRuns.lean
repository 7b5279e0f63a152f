import MakeDownFile.DatabasePool
import Mathlib.Algebra.Order.BigOperators.Group.Finset

/-! # Runs of the connection pool

What any number of threads can rely on, and what is left when the pool is destroyed. -/
namespace DatabasePool

open StepRelations

section Runs

variable {maxSize : ℤ} {connects : ℕ → Bool} {es : List Event} {s : State} {t : Thread}

theorem init_turns (xs : List Bool) (p : Pool) (hidle : p.connList = List.range p.made)
    (hcur : p.curSize = p.made) (hdeleted : p.deleted = []) :
    ∃ n ≤ p.made + xs.length, xs.foldl Pool.initTurn p = ⟨List.range n, n, p.maxSize, n, []⟩ := by
  induction xs generalizing p with
  | nil =>
    refine ⟨p.made, le_rfl, ?_⟩
    rw [List.foldl_nil, ← hidle, ← hcur, ← hdeleted]
  | cons x xs ih =>
    cases x with
    | false =>
      obtain ⟨n, hn, heq⟩ := ih p hidle hcur hdeleted
      exact ⟨n, by rw [List.length_cons]; omega, heq⟩
    | true =>
      obtain ⟨n, hn, heq⟩ := ih (p.initTurn true)
        (by simp only [Pool.initTurn, Pool.createConnection, if_true, List.range_succ, ← hidle])
        (by simp only [Pool.initTurn, Pool.createConnection, if_true]; omega) hdeleted
      refine ⟨n, ?_, heq⟩
      simp only [Pool.initTurn, Pool.createConnection, if_true] at hn
      rw [List.length_cons]
      omega

theorem init_pool_spec (maxSize : ℤ) (connects : ℕ → Bool) :
    ∃ n : ℕ, (n : ℤ) ≤ max maxSize 0 ∧
      initPool maxSize connects = ⟨List.range n, n, maxSize, n, []⟩ := by
  obtain ⟨n, hn, heq⟩ := init_turns ((List.range (maxSize.tdiv 2).toNat).map connects)
    ⟨[], 0, maxSize, 0, []⟩ rfl rfl rfl
  refine ⟨n, ?_, heq⟩
  rw [List.length_map, List.length_range] at hn
  simp only at hn
  have hhalf : maxSize.tdiv 2 ≤ max maxSize 0 := by
    by_cases hm : 0 ≤ maxSize
    · rw [Int.tdiv_eq_ediv_of_nonneg hm]
      omega
    · have hneg := Int.neg_tdiv maxSize 2
      have := Int.tdiv_nonneg (a := -maxSize) (b := 2) (by omega) (by omega)
      omega
  omega

theorem inv_start (maxSize : ℤ) (connects : ℕ → Bool) :
    PoolInv maxSize (start (initPool maxSize connects)) := by
  obtain ⟨n, hn, heq⟩ := init_pool_spec maxSize connects
  rw [heq]
  refine ⟨fun t => iff_of_false id nofun, fun conn => ?_, ?_, hn, rfl, nofun, ?_⟩
  · change (List.range n).count conn = _
    rw [List.count_range]
    rfl
  · simp [start, State.holder, Point.ahead]
  · rintro t conn (hc | hc) <;> cases hc

theorem inv_run (h : after step (start (initPool maxSize connects)) es = some s) :
    PoolInv maxSize s :=
  after_invariant (P := fun _ => PoolInv maxSize) (fun _ _ _ _ hinv hs => inv_step hinv hs)
    (inv_start maxSize connects) h

theorem in_hand_counts {s : State} (h : PoolInv maxSize s) :
    s.pool.connList.length + s.held.length + s.holder.inHand.length ≤ max maxSize 0 := by
  have hsize := h.size
  have hbound := h.bound
  cases hp : s.holder with
  | getMade conn =>
    have hroom := h.room conn hp
    rw [hp] at hsize
    have : conn.toList.length ≤ 1 := by cases conn <;> simp
    simp only [Point.inHand, Point.ahead] at hsize ⊢
    omega
  | getNull conn =>
    rw [hp] at hsize
    have : conn.toList.length ≤ 1 := by cases conn <;> simp
    simp only [Point.inHand, Point.ahead] at hsize ⊢
    omega
  | _ =>
    rw [hp] at hsize
    simp only [Point.inHand, Point.ahead, List.length_nil, List.length_singleton] at hsize ⊢
    omega

/-- However the threads run, one at a time is between a lock and its unlock, every connection
ever made is in one place, idle, with one caller, on its way to one or deleted, and no more
than maxSize of them are not deleted. -/
theorem pool_accounted (h : after step (start (initPool maxSize connects)) es = some s) :
    (∀ t, (s.point t).Critical ↔ s.lock = some t) ∧
      (∀ conn, s.places conn = if conn < s.pool.made then 1 else 0) ∧
      s.pool.connList.length + s.held.length + s.holder.inHand.length ≤ max maxSize 0 :=
  ⟨(inv_run h).exclusive, (inv_run h).placed, in_hand_counts (inv_run h)⟩

theorem pool_accounted_sample : ∃ s,
    after step (start (initPool 2 fun _ => true)) ([.getConnection 1, .getConnection 2] ++
      List.replicate 4 (.next 1 false true)) = some s ∧ s.holder.inHand = [0] ∧ s.places 0 = 1 :=
  ⟨_, rfl, rfl, (@pool_accounted 2 (fun _ => true) ([.getConnection 1, .getConnection 2] ++
    List.replicate 4 (.next 1 false true)) _ rfl).2.1 0⟩

/-- What the thread with the lock has found out, with a driver that never fails. -/
def Asking (maxSize : ℤ) (s : State) : Prop :=
  match s.holder with
  | .getRoom => s.pool.connList = []
  | .getUnlock none => s.pool.connList = [] ∧ maxSize ≤ s.pool.curSize
  | .getNull none | .getMade none => False
  | _ => True

section Asking

variable {lock : Option Thread} {pool : Pool} {point : Thread → Point}
  {held : List (Thread × Conn)}

theorem asking_free : Asking maxSize ⟨none, pool, point, held⟩ := trivial

theorem asking_at {p : Point} (hp : Asking maxSize ⟨some t, pool, fun _ => p, held⟩) :
    Asking maxSize ⟨some t, pool, Function.update point t p, held⟩ := by
  rw [Asking, holder_update]
  exact hp

theorem asking_execute (hinv : PoolInv maxSize ⟨lock, pool, point, held⟩)
    (h : Asking maxSize ⟨lock, pool, point, held⟩) {closed : Bool} {s : State}
    (hs : execute ⟨lock, pool, point, held⟩ t closed true (point t) = some s) :
    Asking maxSize s := by
  have hlocked : (point t).Critical → lock = some t := (hinv.exclusive t).mp
  cases hp : point t with
  | outside =>
    rw [hp] at hs
    cases hs
  | getLock =>
    rw [hp] at hs
    cases lock with
    | some u => cases hs
    | none =>
      cases hs
      exact asking_at trivial
  | releaseLock conn =>
    rw [hp] at hs
    cases lock with
    | some u => cases hs
    | none =>
      cases hs
      exact asking_at trivial
  | getSize =>
    obtain rfl := hlocked (hp ▸ trivial)
    rw [hp] at hs
    cases hlist : pool.connList with
    | nil =>
      simp only [execute, hlist] at hs
      cases hs
      exact asking_at hlist
    | cons conn rest =>
      simp only [execute, hlist] at hs
      cases hs
      exact asking_at trivial
  | getClosed conn =>
    obtain rfl := hlocked (hp ▸ trivial)
    rw [hp] at hs
    cases closed <;> cases hs <;> exact asking_at trivial
  | getNull conn =>
    obtain rfl := hlocked (hp ▸ trivial)
    rw [hp] at hs
    cases conn with
    | none =>
      rw [Asking, State.holder] at h
      simp only [hp] at h
    | some conn =>
      cases hs
      exact asking_at trivial
  | getRoom =>
    obtain rfl := hlocked (hp ▸ trivial)
    rw [Asking, State.holder] at h
    simp only [hp] at h
    rw [hp] at hs
    by_cases hroom : pool.curSize < pool.maxSize
    · simp only [execute, if_pos hroom] at hs
      cases hs
      exact asking_at trivial
    · simp only [execute, if_neg hroom] at hs
      cases hs
      rw [hinv.limit] at hroom
      exact asking_at ⟨h, Int.not_lt.mp hroom⟩
  | getMade conn =>
    obtain rfl := hlocked (hp ▸ trivial)
    rw [hp] at hs
    cases conn with
    | none =>
      rw [Asking, State.holder] at h
      simp only [hp] at h
    | some conn =>
      cases hs
      exact asking_at trivial
  | getUnlock conn =>
    obtain rfl := hlocked (hp ▸ trivial)
    rw [hp] at hs
    cases conn <;> cases hs <;> exact asking_free
  | releasePush conn =>
    obtain rfl := hlocked (hp ▸ trivial)
    rw [hp] at hs
    cases hs
    exact asking_at trivial
  | releaseUnlock =>
    obtain rfl := hlocked (hp ▸ trivial)
    rw [hp] at hs
    cases hs
    exact asking_free

def Event.Connects : Event → Prop
  | .next _ _ connects => connects = true
  | _ => True

instance (e : Event) : Decidable e.Connects := by
  cases e <;> unfold Event.Connects <;> infer_instance

def DriverWorks (es : List Event) : Prop := ∀ e ∈ es, e.Connects

instance (es : List Event) : Decidable (DriverWorks es) :=
  inferInstanceAs (Decidable (∀ e ∈ es, e.Connects))

theorem asking_step {s u : State} {e : Event} (hinv : PoolInv maxSize s) (h : Asking maxSize s)
    (hdriver : e.Connects) (hs : step s e = some u) : Asking maxSize u := by
  obtain ⟨lock, pool, point, held⟩ := s
  cases e with
  | getConnection t =>
    simp only [step] at hs
    split at hs
    · rename_i ht
      cases hs
      rw [Asking] at h ⊢
      rw [State.goTo, holder_outside hinv.exclusive ht id]
      exact h
    · cases hs
  | releaseConnection t conn =>
    simp only [step] at hs
    split at hs
    · rename_i ht
      cases hs
      rw [Asking] at h ⊢
      rw [State.goTo, holder_outside hinv.exclusive ht.1 id]
      exact h
    · cases hs
  | next t closed connects =>
    obtain rfl : connects = true := hdriver
    exact asking_execute hinv h hs

theorem asking_run (hdriver : DriverWorks es)
    (h : after step (start (initPool maxSize connects)) es = some s) : Asking maxSize s := by
  refine (after_invariant (P := fun es s => DriverWorks es → PoolInv maxSize s ∧ Asking maxSize s)
    ?_ ?_ h hdriver).2
  · intro es s e u hinv hs hworks
    obtain ⟨hbefore, hlast⟩ := List.forall_mem_append.mp hworks
    obtain ⟨hpool, hask⟩ := hinv hbefore
    exact ⟨inv_step hpool hs, asking_step hpool hask (hlast e (List.mem_singleton_self e)) hs⟩
  · exact fun _ => ⟨inv_start maxSize connects, asking_free⟩

/-- As long as the driver works, GetConnection returns NULL only while the callers have
maxSize connections. -/
theorem refused_only_when_exhausted (hmax : 0 ≤ maxSize) (hdriver : DriverWorks es)
    (h : after step (start (initPool maxSize connects)) es = some s)
    (ht : s.point t = .getUnlock none) : s.held.length = maxSize := by
  have hinv := inv_run h
  have hask := asking_run hdriver h
  have hlock : s.lock = some t := (hinv.exclusive t).mp (ht ▸ trivial)
  have hholder : s.holder = .getUnlock none := by rw [State.holder, hlock, ← ht]
  rw [Asking, hholder] at hask
  obtain ⟨hempty, hfull⟩ := hask
  have hsize := hinv.size
  have hbound := hinv.bound
  rw [hholder, hempty] at hsize
  simp only [Point.ahead, List.length_nil, Option.toList_none] at hsize
  omega

theorem second_caller_refused : ∃ s,
    after step (start (initPool 1 fun _ => true)) ([.getConnection 1] ++
      List.replicate 5 (.next 1 false true) ++ [.getConnection 2] ++
      List.replicate 3 (.next 2 false true)) = some s ∧
    s.point 2 = .getUnlock none ∧ s.held.length = (1 : ℤ) :=
  ⟨_, rfl, rfl, @refused_only_when_exhausted 1 (fun _ => true) ([.getConnection 1] ++
    List.replicate 5 (.next 1 false true) ++ [.getConnection 2] ++
    List.replicate 3 (.next 2 false true)) _ 2 (by decide) (by decide) rfl rfl⟩

end Asking

section Progress

def GoesOn (s u : State) : Prop := ∃ t closed connects, step s (.next t closed connects) = some u

def Point.left : Point → ℕ
  | .outside => 0
  | .getUnlock _ | .releaseUnlock => 1
  | .getNull _ | .getMade _ | .releasePush _ => 2
  | .getClosed _ | .getRoom | .releaseLock _ => 3
  | .getSize => 4
  | .getLock => 5

def Busy (T : Finset Thread) (s : State) : Prop := ∀ u, u ∉ T → s.point u = .outside

variable {closed connected : Bool} {u : State} {p : Point}

/-- Only the threads in front of the lock may have to wait. -/
theorem goes_on (hp : p ≠ .outside) (hlock : ¬ p.Critical → s.lock = none) :
    ∃ u, execute s t closed connected p = some u := by
  cases p with
  | outside => exact absurd rfl hp
  | getLock => exact ⟨_, if_pos (hlock id)⟩
  | releaseLock conn => exact ⟨_, if_pos (hlock id)⟩
  | getSize =>
    cases hlist : s.pool.connList <;> exact ⟨_, by rw [execute, hlist]⟩
  | getClosed conn => cases closed <;> exact ⟨_, rfl⟩
  | getRoom =>
    by_cases hroom : s.pool.curSize < s.pool.maxSize
    · exact ⟨_, if_pos hroom⟩
    · exact ⟨_, if_neg hroom⟩
  | getNull conn | getMade conn | getUnlock conn => cases conn <;> exact ⟨_, rfl⟩
  | releasePush conn => exact ⟨_, rfl⟩
  | releaseUnlock => exact ⟨_, rfl⟩

theorem moves (h : execute s t closed connected p = some u) :
    ∃ q, u.point = Function.update s.point t q ∧ q.left < p.left := by
  cases p with
  | outside => cases h
  | getLock =>
    obtain ⟨-, h⟩ := Option.ite_none_right_eq_some.mp h
    cases h
    exact ⟨.getSize, rfl, by decide⟩
  | releaseLock conn =>
    obtain ⟨-, h⟩ := Option.ite_none_right_eq_some.mp h
    cases h
    exact ⟨.releasePush conn, rfl, Nat.lt_succ_self 2⟩
  | getSize =>
    cases hlist : s.pool.connList with
    | nil =>
      simp only [execute, hlist] at h
      cases h
      exact ⟨.getRoom, rfl, by decide⟩
    | cons conn rest =>
      simp only [execute, hlist] at h
      cases h
      exact ⟨.getClosed conn, rfl, Nat.lt_succ_self 3⟩
  | getClosed conn =>
    cases closed <;> cases h <;> exact ⟨.getNull _, rfl, Nat.lt_succ_self 2⟩
  | getRoom =>
    by_cases hroom : s.pool.curSize < s.pool.maxSize
    · simp only [execute, if_pos hroom] at h
      cases h
      exact ⟨.getMade _, rfl, Nat.lt_succ_self 2⟩
    · simp only [execute, if_neg hroom] at h
      cases h
      exact ⟨.getUnlock none, rfl, by decide⟩
  | getNull conn | getMade conn =>
    cases conn <;> cases h <;> exact ⟨.getUnlock _, rfl, Nat.lt_succ_self 1⟩
  | getUnlock conn => cases conn <;> cases h <;> exact ⟨.outside, rfl, Nat.one_pos⟩
  | releasePush conn =>
    cases h
    exact ⟨.releaseUnlock, rfl, Nat.lt_succ_self 1⟩
  | releaseUnlock =>
    cases h
    exact ⟨.outside, rfl, Nat.one_pos⟩

theorem busy_goes {T : Finset Thread} (h : Busy T s) (hs : GoesOn s u) :
    Busy T u ∧ ∑ t ∈ T, (u.point t).left < ∑ t ∈ T, (s.point t).left := by
  obtain ⟨t, closed, connected, hs⟩ := hs
  obtain ⟨q, hpoint, hless⟩ := moves hs
  have ht : t ∈ T := by
    by_contra hno
    rw [h t hno] at hless
    exact Nat.not_lt_zero _ hless
  have hother : ∀ v, v ≠ t → u.point v = s.point v := fun v hv => by
    rw [hpoint]
    exact Function.update_of_ne hv q s.point
  have hself : (u.point t).left < (s.point t).left := by
    rw [hpoint, Function.update_self]
    exact hless
  constructor
  · intro v hv
    rw [hother v fun he => hv (he ▸ ht)]
    exact h v hv
  · refine Finset.sum_lt_sum (fun v _ => ?_) ⟨t, ht, hself⟩
    by_cases hv : v = t
    · exact hv ▸ Nat.le_of_lt hself
    · rw [hother v hv]

theorem busy_run (h : after step (start (initPool maxSize connects)) es = some s) :
    ∃ T, Busy T s := by
  refine after_invariant (P := fun _ s => ∃ T, Busy T s) ?_ ⟨∅, fun _ _ => rfl⟩ h
  rintro es s e u ⟨T, hT⟩ hs
  have hcall : ∀ t p, Busy (insert t T) (s.goTo t p) := by
    intro t p v hv
    obtain ⟨hvt, hv⟩ := not_or.mp (mt Finset.mem_insert.mpr hv)
    exact (Function.update_of_ne hvt p s.point).trans (hT v hv)
  cases e with
  | getConnection t =>
    obtain ⟨-, hs⟩ := Option.ite_none_right_eq_some.mp hs
    cases hs
    exact ⟨_, hcall t _⟩
  | releaseConnection t conn =>
    obtain ⟨-, hs⟩ := Option.ite_none_right_eq_some.mp hs
    cases hs
    exact ⟨_, hcall t _⟩
  | next t closed connected => exact ⟨T, (busy_goes hT ⟨t, closed, connected, hs⟩).1⟩

/-- The threads never block each other for good: the one between a lock and its unlock can go
on whatever it is told, without new calls the others cannot go on for ever, and when none of
them can go on they have all come out, and the lock is free. -/
theorem calls_complete (h : after step (start (initPool maxSize connects)) es = some s) :
    (∀ t, (s.point t).Critical → ∀ closed connected,
      ∃ u, step s (.next t closed connected) = some u) ∧
    (∃ n, ∀ m u, Run GoesOn m s u → m ≤ n) ∧
    ∀ m u, Run GoesOn m s u → Stuck GoesOn u → u.lock = none ∧ ∀ t, u.point t = .outside := by
  obtain ⟨T, hT⟩ := busy_run h
  have hinv := inv_run h
  have hinside : ∀ p : Point, p.Critical → p ≠ .outside := by
    rintro p hp rfl
    exact hp
  have hkeep : ∀ s u, PoolInv maxSize s ∧ Busy T s → GoesOn s u → PoolInv maxSize u ∧ Busy T u := by
    rintro s u ⟨hs, hbusy⟩ hgo
    have hbusy := (busy_goes hbusy hgo).1
    obtain ⟨t, closed, connected, hstep⟩ := hgo
    exact ⟨inv_step hs hstep, hbusy⟩
  refine ⟨fun t ht closed connected => ?_, ⟨∑ t ∈ T, (s.point t).left, fun m u hm => ?_⟩, ?_⟩
  · exact goes_on (hinside _ ht) fun hno => absurd ht hno
  · have := run_bounded hkeep (fun s u hs hgo => (busy_goes hs.2 hgo).2) ⟨hinv, hT⟩ hm
    omega
  · intro m u hm hstuck
    obtain ⟨hu, -⟩ := run_invariant hkeep ⟨hinv, hT⟩ hm
    have hfree : u.lock = none := by
      by_contra hlock
      obtain ⟨t, ht⟩ := Option.ne_none_iff_exists'.mp hlock
      have hcritical := (hu.exclusive t).mpr ht
      obtain ⟨v, hv⟩ := @goes_on u t false false _ (hinside _ hcritical) fun hno =>
        absurd hcritical hno
      exact hstuck v ⟨t, false, false, hv⟩
    refine ⟨hfree, fun t => ?_⟩
    by_contra hpoint
    obtain ⟨v, hv⟩ := @goes_on u t false false _ hpoint fun _ => hfree
    exact hstuck v ⟨t, false, false, hv⟩

theorem calls_complete_sample : ∃ s,
    after step (start (initPool 4 fun _ => true))
      [.getConnection 1, .getConnection 2, .next 1 false true] = some s ∧
    (∃ u, step s (.next 1 true false) = some u) ∧ ∃ n, ∀ m u, Run GoesOn m s u → m ≤ n := by
  refine ⟨_, rfl, ?_⟩
  obtain ⟨hgo, hbound, -⟩ := @calls_complete 4 (fun _ => true)
    [.getConnection 1, .getConnection 2, .next 1 false true] _ rfl
  exact ⟨hgo 1 trivial true false, hbound⟩

end Progress

section Destructor

/-- The destructor deletes the idle connections, once each. -/
theorem destory_count (p : Pool) (conn : Conn) :
    p.destoryConnPool.deleted.count conn = p.connList.count conn + p.deleted.count conn := by
  have hfold : ∀ (idle : List Conn) (q : Pool),
      (idle.foldl Pool.destoryConnection q).deleted.count conn =
        idle.count conn + q.deleted.count conn := by
    intro idle
    induction idle with
    | nil => exact fun q => (Nat.zero_add _).symm
    | cons c idle ih =>
      intro q
      rw [List.foldl_cons, ih, Pool.destoryConnection]
      simp only [List.count_cons]
      omega
  exact hfold p.connList p

/-- When the pool is destroyed with nobody in it, every connection ever made has been deleted,
and that once, exactly if every caller has put back what it had got. -/
theorem destroyed_all_iff (h : after step (start (initPool maxSize connects)) es = some s)
    (hfree : s.lock = none) :
    (∀ conn < s.pool.made, s.pool.destoryConnPool.deleted.count conn = 1) ↔ s.held = [] := by
  have hplaced : ∀ conn, s.pool.destoryConnPool.deleted.count conn +
      (s.held.map Prod.snd).count conn = if conn < s.pool.made then 1 else 0 := by
    intro conn
    rw [← (inv_run h).placed conn, State.places, State.holder, hfree, destory_count]
    simp only [in_hand_outside, List.count_nil]
    omega
  constructor
  · intro hall
    by_contra hne
    obtain ⟨⟨t, conn⟩, hm⟩ := List.exists_mem_of_ne_nil _ hne
    have hpos := List.count_pos_iff.mpr (List.mem_map_of_mem (f := Prod.snd) hm)
    have := hplaced conn
    by_cases hlt : conn < s.pool.made
    · have hone := hall conn hlt
      rw [if_pos hlt] at this
      simp only at hpos
      omega
    · rw [if_neg hlt] at this
      simp only at hpos
      omega
  · intro hnone conn hlt
    have := hplaced conn
    rw [hnone, if_pos hlt] at this
    exact this

theorem destroyed_all_sample : ∃ s,
    after step (start (initPool 2 fun _ => true)) (.getConnection 1 ::
      List.replicate 5 (.next 1 false true)) = some s ∧ s.lock = none ∧
    ¬ ∀ conn < s.pool.made, s.pool.destoryConnPool.deleted.count conn = 1 := by
  refine ⟨_, rfl, rfl, fun hall => ?_⟩
  have := (@destroyed_all_iff 2 (fun _ => true) (.getConnection 1 ::
    List.replicate 5 (.next 1 false true)) _ rfl rfl).mp hall
  cases this

end Destructor

end Runs

end DatabasePool
