import MakeDownFile.StepRelations
import Mathlib.Algebra.Order.Group.Nat
import Mathlib.Data.Int.Notation
import Mathlib.Logic.Function.Basic

/-! # The connection pool

Threads take connections from the pool and put them back. The body of each function is a
critical section, in which the other threads can still come as far as the lock. -/
namespace DatabasePool

open StepRelations

abbrev Thread := ℕ

/-- Connections by the order in which the driver has made them. -/
abbrev Conn := ℕ

structure Pool where
  connList : List Conn
  curSize : ℤ
  maxSize : ℤ
  made : ℕ
  deleted : List Conn
  deriving DecidableEq, Repr

def Pool.createConnection (p : Pool) (connects : Bool) : Pool × Option Conn :=
  if connects then ({ p with made := p.made + 1 }, some p.made) else (p, none)

def Pool.initTurn (p : Pool) (connects : Bool) : Pool :=
  match p.createConnection connects with
  | (p, some conn) => { p with connList := p.connList ++ [conn], curSize := p.curSize + 1 }
  | (p, none) => p

def Pool.initConnection (p : Pool) (initSize : ℤ) (connects : ℕ → Bool) : Pool :=
  ((List.range initSize.toNat).map connects).foldl Pool.initTurn p

def initPool (maxSize : ℤ) (connects : ℕ → Bool) : Pool :=
  Pool.initConnection ⟨[], 0, maxSize, 0, []⟩ (maxSize.tdiv 2) connects

def Pool.destoryConnection (p : Pool) (conn : Conn) : Pool :=
  { p with deleted := conn :: p.deleted }

def Pool.destoryConnPool (p : Pool) : Pool :=
  { p.connList.foldl Pool.destoryConnection p with curSize := 0, connList := [] }

/-- Where a thread is: outside, or in front of a statement of GetConnection or
ReleaseConnection. -/
inductive Point where
  | outside
  | getLock
  | getSize
  | getClosed (conn : Conn)
  | getNull (conn : Option Conn)
  | getRoom
  | getMade (conn : Option Conn)
  | getUnlock (conn : Option Conn)
  | releaseLock (conn : Conn)
  | releasePush (conn : Conn)
  | releaseUnlock
  deriving DecidableEq, Repr

def Point.Critical : Point → Prop
  | .outside | .getLock | .releaseLock _ => False
  | _ => True

instance (p : Point) : Decidable p.Critical := by
  cases p <;> unfold Point.Critical <;> infer_instance

structure State where
  lock : Option Thread
  pool : Pool
  point : Thread → Point
  held : List (Thread × Conn)

def start (p : Pool) : State := ⟨none, p, fun _ => .outside, []⟩

/-- A thread calls a function, or goes on to its next statement. Then `closed` and `connects`
are what isClosed and the driver say, where they are asked. -/
inductive Event where
  | getConnection (t : Thread)
  | releaseConnection (t : Thread) (conn : Conn)
  | next (t : Thread) (closed connects : Bool)
  deriving DecidableEq, Repr

namespace State

variable (s : State)

def goTo (t : Thread) (p : Point) : State := { s with point := Function.update s.point t p }

def acquire (t : Thread) (p : Point) : Option State :=
  if s.lock = none then some ({ s with lock := some t }.goTo t p) else none

def withPool (p : Pool) : State := { s with pool := p }

end State

def execute (s : State) (t : Thread) (closed connects : Bool) : Point → Option State
  | .outside => none
  | .getLock => s.acquire t .getSize
  | .getSize =>
    match s.pool.connList with
    | [] => some (s.goTo t .getRoom)
    | conn :: rest => some ((s.withPool { s.pool with connList := rest }).goTo t (.getClosed conn))
  | .getClosed conn =>
    if closed then
      let r := Pool.createConnection { s.pool with deleted := conn :: s.pool.deleted } connects
      some ((s.withPool r.1).goTo t (.getNull r.2))
    else some (s.goTo t (.getNull (some conn)))
  | .getNull none =>
    some ((s.withPool { s.pool with curSize := s.pool.curSize - 1 }).goTo t (.getUnlock none))
  | .getNull (some conn) => some (s.goTo t (.getUnlock (some conn)))
  | .getRoom =>
    if s.pool.curSize < s.pool.maxSize then
      let r := s.pool.createConnection connects
      some ((s.withPool r.1).goTo t (.getMade r.2))
    else some (s.goTo t (.getUnlock none))
  | .getMade none => some (s.goTo t (.getUnlock none))
  | .getMade (some conn) =>
    some ((s.withPool { s.pool with curSize := s.pool.curSize + 1 }).goTo t
      (.getUnlock (some conn)))
  | .getUnlock none => some ({ s with lock := none }.goTo t .outside)
  | .getUnlock (some conn) =>
    some ({ s with lock := none, held := (t, conn) :: s.held }.goTo t .outside)
  | .releaseLock conn => s.acquire t (.releasePush conn)
  | .releasePush conn =>
    some ({ s.withPool { s.pool with connList := s.pool.connList ++ [conn] } with
      held := s.held.erase (t, conn) }.goTo t .releaseUnlock)
  | .releaseUnlock => some ({ s with lock := none }.goTo t .outside)

/-- A thread releases only what it has got and not released yet. -/
def step (s : State) : Event → Option State
  | .getConnection t => if s.point t = .outside then some (s.goTo t .getLock) else none
  | .releaseConnection t conn =>
    if s.point t = .outside ∧ (t, conn) ∈ s.held then some (s.goTo t (.releaseLock conn)) else none
  | .next t closed connects => execute s t closed connects (s.point t)

/-- The connections on their way from the list, or from the driver, to the caller. -/
def Point.inHand : Point → List Conn
  | .getClosed conn => [conn]
  | .getNull conn | .getMade conn | .getUnlock conn => conn.toList
  | _ => []

def Point.ahead : Point → ℤ
  | .getClosed _ | .getNull _ => 1
  | .getUnlock conn => conn.toList.length
  | _ => 0

def State.holder (s : State) : Point :=
  match s.lock with
  | none => .outside
  | some t => s.point t

/-- In how many places a connection is: idle, with a caller, on its way, or deleted. -/
def State.places (s : State) (conn : Conn) : ℕ :=
  s.pool.connList.count conn + (s.held.map Prod.snd).count conn +
    s.holder.inHand.count conn + s.pool.deleted.count conn

def Exclusive (lock : Option Thread) (point : Thread → Point) : Prop :=
  ∀ t, (point t).Critical ↔ lock = some t

def Releasing (point : Thread → Point) (held : List (Thread × Conn)) : Prop :=
  ∀ t conn, point t = .releaseLock conn ∨ point t = .releasePush conn → (t, conn) ∈ held

structure PoolInv (maxSize : ℤ) (s : State) : Prop where
  exclusive : Exclusive s.lock s.point
  placed : ∀ conn, s.places conn = if conn < s.pool.made then 1 else 0
  size : s.pool.curSize = s.pool.connList.length + s.held.length + s.holder.ahead
  bound : s.pool.curSize ≤ max maxSize 0
  limit : s.pool.maxSize = maxSize
  room : ∀ conn, s.holder = .getMade conn → s.pool.curSize < maxSize
  releasing : Releasing s.point s.held

section Sections

variable {maxSize : ℤ} {t : Thread} {pool pool' : Pool} {point : Thread → Point}
  {held held' : List (Thread × Conn)} {p q : Point} {lock : Option Thread}

theorem holder_free : (State.mk none pool point held).holder = .outside := rfl

@[simp] theorem in_hand_outside : Point.outside.inHand = [] := rfl

theorem holder_update :
    (State.mk (some t) pool (Function.update point t p) held).holder = p := by
  rw [State.holder]
  exact Function.update_self t p point

theorem exclusive_inside (h : Exclusive (some t) point) (hp : p.Critical) :
    Exclusive (some t) (Function.update point t p) := by
  intro u
  by_cases hu : u = t
  · subst hu
    simp [hp]
  · rw [Function.update_of_ne hu]
    exact h u

theorem exclusive_lock (h : Exclusive none point) (hp : p.Critical) :
    Exclusive (some t) (Function.update point t p) := by
  intro u
  by_cases hu : u = t
  · subst hu
    simp [hp]
  · rw [Function.update_of_ne hu]
    have hfree : ¬ (point u).Critical := fun hc => nomatch (h u).mp hc
    exact iff_of_false hfree fun heq => hu (Option.some.inj heq).symm

theorem exclusive_unlock (h : Exclusive (some t) point) :
    Exclusive none (Function.update point t .outside) := by
  intro u
  by_cases hu : u = t
  · subst hu
    simp [Point.Critical]
  · rw [Function.update_of_ne hu]
    have hfree : ¬ (point u).Critical := fun hc => hu (Option.some.inj ((h u).mp hc)).symm
    exact iff_of_false hfree fun heq => nomatch heq

theorem exclusive_outside (h : Exclusive lock point) (ht : ¬ (point t).Critical)
    (hp : ¬ p.Critical) : Exclusive lock (Function.update point t p) := by
  intro u
  by_cases hu : u = t
  · subst hu
    rw [Function.update_self, ← h u]
    exact iff_of_false hp ht
  · rw [Function.update_of_ne hu]
    exact h u

theorem releasing_update (h : Releasing point held)
    (hp : ∀ conn, p = .releaseLock conn ∨ p = .releasePush conn → (t, conn) ∈ held')
    (hheld : ∀ u conn, u ≠ t → (u, conn) ∈ held → (u, conn) ∈ held') :
    Releasing (Function.update point t p) held' := by
  intro u conn hu
  by_cases hut : u = t
  · subst hut
    rw [Function.update_self] at hu
    exact hp conn hu
  · rw [Function.update_of_ne hut] at hu
    exact hheld u conn hut (h u conn hu)

theorem inv_inside (h : PoolInv maxSize ⟨some t, pool, point, held⟩) (hp : p.Critical)
    (hplaced : ∀ conn, pool'.connList.count conn + (held'.map Prod.snd).count conn +
      p.inHand.count conn + pool'.deleted.count conn = if conn < pool'.made then 1 else 0)
    (hsize : pool'.curSize = pool'.connList.length + held'.length + p.ahead)
    (hbound : pool'.curSize ≤ max maxSize 0) (hlimit : pool'.maxSize = maxSize)
    (hroom : ∀ conn, p = .getMade conn → pool'.curSize < maxSize)
    (hreleasing : ∀ conn, p = .releaseLock conn ∨ p = .releasePush conn → (t, conn) ∈ held')
    (hheld : ∀ u conn, u ≠ t → (u, conn) ∈ held → (u, conn) ∈ held') :
    PoolInv maxSize ⟨some t, pool', Function.update point t p, held'⟩ := by
  refine ⟨exclusive_inside h.exclusive hp, fun conn => ?_, ?_, hbound, hlimit, ?_,
    releasing_update h.releasing hreleasing hheld⟩
  · rw [State.places, holder_update]
    exact hplaced conn
  · rw [holder_update]
    exact hsize
  · rw [holder_update]
    exact hroom

theorem holder_outside (h : Exclusive lock point) (hq : point t = q) (ht : ¬ q.Critical) :
    (State.mk lock pool (Function.update point t p) held).holder =
      (State.mk lock pool point held).holder := by
  cases lock with
  | none => rfl
  | some u =>
    have hu : u ≠ t := by
      rintro rfl
      exact ht (hq ▸ (h u).mpr rfl)
    exact Function.update_of_ne hu p point

theorem inv_outside (h : PoolInv maxSize ⟨lock, pool, point, held⟩)
    (hq : point t = q) (ht : ¬ q.Critical) (hp : ¬ p.Critical)
    (hreleasing : ∀ conn, p = .releaseLock conn ∨ p = .releasePush conn → (t, conn) ∈ held) :
    PoolInv maxSize ⟨lock, pool, Function.update point t p, held⟩ := by
  have hholder : (State.mk lock pool (Function.update point t p) held).holder =
      (State.mk lock pool point held).holder := holder_outside h.exclusive hq ht
  subst hq
  refine ⟨exclusive_outside h.exclusive ht hp, fun conn => ?_, ?_, h.bound, h.limit, ?_,
    releasing_update h.releasing hreleasing fun _ _ _ hm => hm⟩
  · rw [State.places, hholder]
    exact h.placed conn
  · rw [hholder]
    exact h.size
  · rw [hholder]
    exact h.room

theorem inv_lock (h : PoolInv maxSize ⟨none, pool, point, held⟩) (hp : p.Critical)
    (hhand : p.inHand = []) (hahead : p.ahead = 0) (hroom : ∀ conn, p ≠ .getMade conn)
    (hreleasing : ∀ conn, p = .releaseLock conn ∨ p = .releasePush conn → (t, conn) ∈ held) :
    PoolInv maxSize ⟨some t, pool, Function.update point t p, held⟩ := by
  refine ⟨exclusive_lock h.exclusive hp, fun conn => ?_, ?_, h.bound, h.limit, ?_,
    releasing_update h.releasing hreleasing fun _ _ _ hm => hm⟩
  · rw [State.places, holder_update, hhand]
    exact h.placed conn
  · rw [holder_update, hahead]
    exact h.size
  · rw [holder_update]
    exact fun conn hc => absurd hc (hroom conn)

theorem inv_unlock (h : PoolInv maxSize ⟨some t, pool, point, held⟩)
    (hq : point t = q) (hheld : held' = q.inHand.map (t, ·) ++ held)
    (hahead : q.ahead = q.inHand.length) :
    PoolInv maxSize ⟨none, pool, Function.update point t .outside, held'⟩ := by
  subst hheld hq
  refine ⟨exclusive_unlock h.exclusive, fun conn => ?_, ?_, h.bound, h.limit, nofun,
    releasing_update h.releasing ?_ fun _ _ _ hm => List.mem_append_right _ hm⟩
  · have := h.placed conn
    simp only [State.places, State.holder] at this
    rw [State.places, holder_free]
    simp only [in_hand_outside, List.count_nil, List.map_append, List.map_map,
      Function.comp_def, List.map_id', List.count_append]
    omega
  · have := h.size
    simp only [State.holder] at this
    rw [holder_free]
    simp only [Point.ahead, List.length_append, List.length_map]
    omega
  · rintro conn (hc | hc) <;> cases hc

theorem create_spec (p : Pool) (connects : Bool) :
    (p.createConnection connects).1.connList = p.connList ∧
      (p.createConnection connects).1.deleted = p.deleted ∧
      (p.createConnection connects).1.curSize = p.curSize ∧
      (p.createConnection connects).1.maxSize = p.maxSize ∧
      ∀ conn : ℕ, (p.createConnection connects).2.toList.count conn +
        (if conn < p.made then 1 else 0) =
          if conn < (p.createConnection connects).1.made then 1 else 0 := by
  cases connects with
  | false => exact ⟨rfl, rfl, rfl, rfl, fun conn => Nat.zero_add _⟩
  | true =>
    refine ⟨rfl, rfl, rfl, rfl, fun conn => ?_⟩
    simp only [Pool.createConnection, if_true, Option.toList_some, List.count_singleton, beq_iff_eq]
    split <;> split <;> split <;> omega

theorem inside_facts (h : PoolInv maxSize ⟨some t, pool, point, held⟩) (hp : point t = p) :
    (∀ conn : ℕ, pool.connList.count conn + (held.map Prod.snd).count conn +
        p.inHand.count conn + pool.deleted.count conn = if conn < pool.made then 1 else 0) ∧
      pool.curSize = pool.connList.length + held.length + p.ahead := by
  subst hp
  exact ⟨h.placed, h.size⟩

theorem inv_goes (h : PoolInv maxSize ⟨some t, pool, point, held⟩) (hq : point t = q)
    (hp : p.Critical) (hhand : p.inHand = q.inHand) (hahead : p.ahead = q.ahead)
    (hroom : ∀ conn, p ≠ .getMade conn) (hpush : ∀ conn, p ≠ .releasePush conn) :
    PoolInv maxSize ⟨some t, pool, Function.update point t p, held⟩ := by
  obtain ⟨hplaced, hsize⟩ := inside_facts h hq
  rw [← hhand] at hplaced
  rw [← hahead] at hsize
  refine inv_inside h hp hplaced hsize h.bound h.limit (fun c hc => absurd hc (hroom c)) ?_
    fun _ _ _ hm => hm
  rintro conn (hc | hc)
  · rw [hc] at hp
    exact hp.elim
  · exact absurd hc (hpush conn)

theorem inv_take (h : PoolInv maxSize ⟨some t, pool, point, held⟩) (hp : point t = .getSize)
    {conn : Conn} {rest : List Conn} (hlist : pool.connList = conn :: rest) :
    PoolInv maxSize ⟨some t, { pool with connList := rest },
      Function.update point t (.getClosed conn), held⟩ := by
  obtain ⟨hplaced, hsize⟩ := inside_facts h hp
  refine inv_inside h trivial (fun c => ?_) ?_ h.bound h.limit nofun nofun fun _ _ _ hm => hm
  · have := hplaced c
    rw [hlist] at this
    simp only [Point.inHand, List.count_cons, List.count_nil] at this ⊢
    omega
  · rw [hlist, List.length_cons] at hsize
    simp only [Point.ahead] at hsize ⊢
    omega

theorem inv_replace (h : PoolInv maxSize ⟨some t, pool, point, held⟩) {conn : Conn}
    (hp : point t = .getClosed conn) (connects : Bool) {r : Pool × Option Conn}
    (hr : Pool.createConnection { pool with deleted := conn :: pool.deleted } connects = r) :
    PoolInv maxSize ⟨some t, r.1, Function.update point t (.getNull r.2), held⟩ := by
  obtain ⟨hplaced, hsize⟩ := inside_facts h hp
  obtain ⟨hidle, hdeleted, hcur, hmax, hmade⟩ :=
    create_spec { pool with deleted := conn :: pool.deleted } connects
  rw [hr] at hidle hdeleted hcur hmax hmade
  refine inv_inside h trivial (fun c => ?_) ?_ ?_ ?_ nofun nofun fun _ _ _ hm => hm
  · have := hplaced c
    have hnew := hmade c
    rw [hidle, hdeleted]
    simp only [Point.inHand, List.count_cons, List.count_nil] at this hnew ⊢
    omega
  · rw [hidle, hcur]
    exact hsize
  · rw [hcur]
    exact h.bound
  · rw [hmax]
    exact h.limit

theorem inv_drop (h : PoolInv maxSize ⟨some t, pool, point, held⟩)
    (hp : point t = .getNull none) :
    PoolInv maxSize ⟨some t, { pool with curSize := pool.curSize - 1 },
      Function.update point t (.getUnlock none), held⟩ := by
  obtain ⟨hplaced, hsize⟩ := inside_facts h hp
  have hbound := h.bound
  refine inv_inside h trivial hplaced ?_ ?_ h.limit nofun nofun fun _ _ _ hm => hm
  · simp only [Point.ahead, Option.toList_none, List.length_nil] at hsize ⊢
    omega
  · simp only at hbound ⊢
    omega

theorem inv_connect (h : PoolInv maxSize ⟨some t, pool, point, held⟩) (hp : point t = .getRoom)
    (hroom : pool.curSize < pool.maxSize) (connects : Bool) {r : Pool × Option Conn}
    (hr : pool.createConnection connects = r) :
    PoolInv maxSize ⟨some t, r.1, Function.update point t (.getMade r.2), held⟩ := by
  obtain ⟨hplaced, hsize⟩ := inside_facts h hp
  obtain ⟨hidle, hdeleted, hcur, hmax, hmade⟩ := create_spec pool connects
  rw [hr] at hidle hdeleted hcur hmax hmade
  refine inv_inside h trivial (fun c => ?_) ?_ ?_ ?_ (fun c _ => ?_) nofun fun _ _ _ hm => hm
  · have := hplaced c
    have hnew := hmade c
    rw [hidle, hdeleted]
    simp only [Point.inHand, List.count_nil] at this hnew ⊢
    omega
  · rw [hidle, hcur]
    exact hsize
  · rw [hcur]
    exact h.bound
  · rw [hmax]
    exact h.limit
  · rw [hcur, ← h.limit]
    exact hroom

theorem inv_count (h : PoolInv maxSize ⟨some t, pool, point, held⟩) {conn : Conn}
    (hp : point t = .getMade (some conn)) :
    PoolInv maxSize ⟨some t, { pool with curSize := pool.curSize + 1 },
      Function.update point t (.getUnlock (some conn)), held⟩ := by
  obtain ⟨hplaced, hsize⟩ := inside_facts h hp
  have hroom : pool.curSize < maxSize := h.room (some conn) hp
  refine inv_inside h trivial hplaced ?_ ?_ h.limit nofun nofun fun _ _ _ hm => hm
  · simp only [Point.ahead, Option.toList_some, List.length_singleton] at hsize ⊢
    omega
  · simp only
    omega

theorem inv_push (h : PoolInv maxSize ⟨some t, pool, point, held⟩) {conn : Conn}
    (hp : point t = .releasePush conn) :
    PoolInv maxSize ⟨some t, { pool with connList := pool.connList ++ [conn] },
      Function.update point t .releaseUnlock, held.erase (t, conn)⟩ := by
  obtain ⟨hplaced, hsize⟩ := inside_facts h hp
  have hheld : (t, conn) ∈ held := h.releasing t conn (.inr hp)
  have hperm := (List.perm_cons_erase hheld).map Prod.snd
  refine inv_inside h trivial (fun c => ?_) ?_ h.bound h.limit nofun ?_ fun u c hu hm => ?_
  · have := hplaced c
    rw [hperm.count_eq c] at this
    simp only [Point.inHand, List.map_cons, List.count_cons, List.count_append,
      List.count_nil] at this ⊢
    omega
  · have hlen := List.length_erase_of_mem hheld
    have hpos := List.length_pos_of_mem hheld
    simp only [Point.ahead, List.length_append, List.length_singleton] at hsize ⊢
    omega
  · rintro c (hc | hc) <;> cases hc
  · exact (List.mem_erase_of_ne fun he => hu (Prod.mk.inj he).1).mpr hm

/-- Every statement of GetConnection and ReleaseConnection keeps the invariant. -/
theorem inv_execute (h : PoolInv maxSize ⟨lock, pool, point, held⟩) {closed connects : Bool}
    {s : State} (hs : execute ⟨lock, pool, point, held⟩ t closed connects (point t) = some s) :
    PoolInv maxSize s := by
  have hlocked : (point t).Critical → lock = some t := (h.exclusive t).mp
  cases hp : point t with
  | outside =>
    rw [hp] at hs
    cases hs
  | getLock =>
    rw [hp] at hs
    cases lock with
    | some u => cases hs
    | none =>
      cases hs
      exact inv_lock h trivial rfl rfl nofun nofun
  | releaseLock conn =>
    rw [hp] at hs
    cases lock with
    | some u => cases hs
    | none =>
      cases hs
      refine inv_lock h trivial rfl rfl nofun ?_
      rintro c (hc | hc) <;> cases hc
      exact h.releasing t conn (.inl hp)
  | getSize =>
    obtain rfl := hlocked (hp ▸ trivial)
    rw [hp] at hs
    cases hlist : pool.connList with
    | nil =>
      simp only [execute, hlist] at hs
      cases hs
      exact inv_goes h hp trivial rfl rfl nofun nofun
    | cons conn rest =>
      simp only [execute, hlist] at hs
      cases hs
      exact inv_take h hp hlist
  | getClosed conn =>
    obtain rfl := hlocked (hp ▸ trivial)
    rw [hp] at hs
    cases closed with
    | false =>
      cases hs
      exact inv_goes h hp trivial rfl rfl nofun nofun
    | true =>
      cases hs
      exact inv_replace h hp connects rfl
  | getNull conn =>
    obtain rfl := hlocked (hp ▸ trivial)
    rw [hp] at hs
    cases conn with
    | none =>
      cases hs
      exact inv_drop h hp
    | some conn =>
      cases hs
      exact inv_goes h hp trivial rfl rfl nofun nofun
  | getRoom =>
    obtain rfl := hlocked (hp ▸ trivial)
    rw [hp] at hs
    by_cases hroom : pool.curSize < pool.maxSize
    · simp only [execute, if_pos hroom] at hs
      cases hs
      exact inv_connect h hp hroom connects rfl
    · simp only [execute, if_neg hroom] at hs
      cases hs
      exact inv_goes h hp trivial rfl rfl nofun nofun
  | getMade conn =>
    obtain rfl := hlocked (hp ▸ trivial)
    rw [hp] at hs
    cases conn with
    | none =>
      cases hs
      exact inv_goes h hp trivial rfl rfl nofun nofun
    | some conn =>
      cases hs
      exact inv_count h hp
  | getUnlock conn =>
    obtain rfl := hlocked (hp ▸ trivial)
    rw [hp] at hs
    cases conn with
    | none =>
      cases hs
      exact inv_unlock h hp rfl rfl
    | some conn =>
      cases hs
      exact inv_unlock h hp rfl rfl
  | releasePush conn =>
    obtain rfl := hlocked (hp ▸ trivial)
    rw [hp] at hs
    cases hs
    exact inv_push h hp
  | releaseUnlock =>
    obtain rfl := hlocked (hp ▸ trivial)
    rw [hp] at hs
    cases hs
    exact inv_unlock h hp rfl rfl

theorem inv_step {s u : State} {e : Event} (h : PoolInv maxSize s) (hs : step s e = some u) :
    PoolInv maxSize u := by
  obtain ⟨lock, pool, point, held⟩ := s
  cases e with
  | getConnection t =>
    simp only [step] at hs
    split at hs
    · rename_i ht
      cases hs
      exact inv_outside h ht id id nofun
    · cases hs
  | releaseConnection t conn =>
    simp only [step] at hs
    split at hs
    · rename_i ht
      cases hs
      refine inv_outside h ht.1 id id ?_
      rintro c (hc | hc) <;> cases hc
      exact ht.2
    · cases hs
  | next t closed connects => exact inv_execute h hs

end Sections

end DatabasePool
