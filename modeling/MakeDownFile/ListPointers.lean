import MakeDownFile.LinkedLists

/-! # Two pointers on linked lists

The cycle of a list and the node at which two lists come together, found without marking a
node. -/
namespace ListPointers

open LinkedLists

variable {α : Type} [DecidableEq α]

/-- `while (runner && runner->next)`, which is left when the two meet. -/
def chase (next : α → Option α) : ℕ → Option α → Option α → Option (Option α × Option α)
  | 0, _, _ => none
  | fuel + 1, walker, runner =>
    match runner.bind next with
    | none => some (walker, runner)
    | some r => do
      let walker ← follow next walker
      let runner := next r
      if walker = runner then some (walker, runner) else chase next fuel walker runner

/-- `while (headWalker != crossWalker)`. -/
def meet (next : α → Option α) : ℕ → Option α → Option α → Option (Option α)
  | 0, _, _ => none
  | fuel + 1, headWalker, crossWalker =>
    if headWalker ≠ crossWalker then do
      let headWalker ← follow next headWalker
      let crossWalker ← follow next crossWalker
      meet next fuel headWalker crossWalker
    else some headWalker

def detectCycle (next : α → Option α) (fuel : ℕ) (head : Option α) : Option (Option α) := do
  let (walker, runner) ← chase next fuel head head
  match runner.bind next with
  | none => some none
  | some _ => meet next fuel head walker

/-- The other detectCycle, which goes on with the faster pointer. When the loop is left the two
are the same. -/
def detectCycleSlowFast (next : α → Option α) (fuel : ℕ) (head : Option α) :
    Option (Option α) := do
  let (_, fast) ← chase next fuel head head
  match fast.bind next with
  | none => some none
  | some _ => meet next fuel head fast

def hasCycle (next : α → Option α) : ℕ → Option α → Option α → Option Bool
  | 0, _, _ => none
  | fuel + 1, slow, fast =>
    match fast.bind next with
    | none => some false
    | some r => do
      let slow ← follow next slow
      let fast := next r
      if slow = fast then some true else hasCycle next fuel slow fast

/-- `a ? a->next : headB`. -/
def advance (next : α → Option α) (head : Option α) : Option α → Option α
  | some x => next x
  | none => head

def intersect (next : α → Option α) (headA headB : Option α) :
    ℕ → Option α → Option α → Option (Option α)
  | 0, _, _ => none
  | fuel + 1, a, b =>
    if a ≠ b then intersect next headA headB fuel (advance next headB a) (advance next headA b)
    else some a

def getIntersectionNode (next : α → Option α) (fuel : ℕ) (headA headB : Option α) :
    Option (Option α) :=
  if headA = none ∨ headB = none then some none
  else intersect next headA headB fuel headA headB

section Cycle

variable {next : α → Option α} {head : Option α} {n t u : ℕ} {fuel : ℕ}

/-- Away from the end the chase is left only where the two meet. -/
theorem chase_left {walker runner v w : Option α} (h : chase next fuel walker runner = some (v, w))
    (hw : w.bind next ≠ none) : v = w := by
  induction fuel generalizing walker runner with
  | zero => cases h
  | succ fuel ih =>
    rw [chase] at h
    cases hr : runner.bind next with
    | none =>
      rw [hr] at h
      cases h
      exact absurd hr hw
    | some r =>
      rw [hr] at h
      obtain ⟨walker', -, h⟩ := Option.bind_eq_some_iff.mp h
      by_cases hmeet : walker' = next r
      · rw [if_pos hmeet] at h
        cases h
        exact hmeet
      · rw [if_neg hmeet] at h
        exact ih h

/-- The two ways to find the entry are one. -/
theorem detect_cycle_slow_fast_eq (next : α → Option α) (fuel : ℕ) (head : Option α) :
    detectCycleSlowFast next fuel head = detectCycle next fuel head := by
  unfold detectCycleSlowFast detectCycle
  cases hchase : chase next fuel head head with
  | none => rfl
  | some p =>
    obtain ⟨walker, runner⟩ := p
    cases hr : runner.bind next with
    | none => simp only [Option.bind_eq_bind, Option.bind_some, hr]
    | some r =>
      have hsame : walker = runner := chase_left hchase (by rw [hr]; exact Option.some_ne_none r)
      simp only [Option.bind_eq_bind, Option.bind_some, hr, hsame]

theorem chase_ended (hend : path next head n = none) (ht : t ≤ n) (hfuel : n - t < fuel) :
    (∃ walker runner, chase next fuel (path next head t) (path next head (2 * t)) =
      some (walker, runner) ∧ runner.bind next = none) ∧
    hasCycle next fuel (path next head t) (path next head (2 * t)) = some false := by
  induction fuel generalizing t with
  | zero => omega
  | succ fuel ih =>
    rw [chase, hasCycle]
    have hnext : (path next head (2 * t)).bind next = path next head (2 * t + 1) := rfl
    cases hstep : path next head (2 * t + 1) with
    | none =>
      rw [hnext, hstep]
      exact ⟨⟨_, _, rfl, hnext.trans hstep⟩, rfl⟩
    | some r =>
      have hlong : 2 * t + 1 < n := by
        by_contra hle
        rw [path_ended hend (by omega)] at hstep
        cases hstep
      have hwalker : path next head (t + 1) ≠ none := by
        intro hnil
        rw [path_ended hnil (by omega)] at hstep
        cases hstep
      have hrunner : next r = path next head (2 * (t + 1)) := by
        rw [Nat.mul_succ, path, hstep]
        rfl
      have hapart : path next head (t + 1) ≠ path next head (2 * (t + 1)) := by
        intro heq
        obtain ⟨x, hx⟩ := Option.ne_none_iff_exists'.mp hwalker
        rw [Nat.two_mul] at heq
        exact absurd (ended_once hend hx heq.symm) (Nat.succ_ne_zero t)
      have hslow : path next head t ≠ none := fun hnil =>
        hwalker (path_ended hnil (Nat.le_succ t))
      rw [hnext, hstep]
      simp only [follow_path hslow, Option.bind_eq_bind, Option.bind_some, hrunner, if_neg hapart]
      exact ih (by omega) (by omega)

/-- On a cycle the two meet at the next time at which the faster one is whole rounds ahead. -/
theorem chase_meets (hgoes : ∀ n, path next head n ≠ none)
    (hmeet : path next head u = path next head (2 * u)) (ht : t < u) (hfuel : u - t ≤ fuel) :
    (∃ v, t < v ∧ path next head v = path next head (2 * v) ∧
      chase next fuel (path next head t) (path next head (2 * t)) =
        some (path next head v, path next head (2 * v))) ∧
    hasCycle next fuel (path next head t) (path next head (2 * t)) = some true := by
  induction fuel generalizing t with
  | zero => omega
  | succ fuel ih =>
    rw [chase, hasCycle]
    have hnext : (path next head (2 * t)).bind next = path next head (2 * t + 1) := rfl
    obtain ⟨r, hr⟩ := Option.ne_none_iff_exists'.mp (hgoes (2 * t + 1))
    have hrunner : next r = path next head (2 * (t + 1)) := by
      rw [Nat.mul_succ, path, hr]
      rfl
    rw [hnext, hr]
    simp only [follow_path (hgoes t), Option.bind_eq_bind, Option.bind_some, hrunner]
    by_cases heq : path next head (t + 1) = path next head (2 * (t + 1))
    · rw [if_pos heq, if_pos heq]
      exact ⟨⟨t + 1, Nat.lt_succ_self t, heq, rfl⟩, rfl⟩
    · have htu : t + 1 ≠ u := by
        rintro rfl
        exact heq hmeet
      obtain ⟨⟨v, htv, hv, hchase⟩, hhas⟩ := ih (t := t + 1) (by omega) (by omega)
      rw [if_neg heq, if_neg heq]
      exact ⟨⟨v, by omega, hv, hchase⟩, hhas⟩

/-- Two pointers that go at one speed meet where they first agree. -/
theorem meet_meets (hgoes : ∀ n, path next head n ≠ none)
    (hmeet : path next head (t + u) = path next head u) (n : ℕ) (hn : n ≤ u)
    (hapart : ∀ k < u, path next head (t + k) ≠ path next head k) (hfuel : u - n < fuel) :
    meet next fuel (path next head n) (path next head (t + n)) = some (path next head u) := by
  induction fuel generalizing n with
  | zero => omega
  | succ fuel ih =>
    rw [meet]
    by_cases hnu : n = u
    · subst hnu
      rw [if_neg (not_not.mpr hmeet.symm)]
    · rw [if_pos (hapart n (by omega)).symm, follow_path (hgoes n), follow_path (hgoes (t + n))]
      exact ih (n + 1) (by omega) (by omega)

/-- detectCycle returns null for a list that ends, and otherwise the first node that the list
comes back to; hasCycle tells the two apart. -/
theorem detect_cycle_finds [Finite α] (next : α → Option α) (head : Option α) : ∃ bound : ℕ,
    ((∃ n, path next head n = none) ∧ ∀ fuel, bound ≤ fuel →
      detectCycle next fuel head = some none ∧ hasCycle next fuel head head = some false) ∨
    ∃ m, EntersAt next head m ∧ ∀ fuel, bound ≤ fuel →
      detectCycle next fuel head = some (path next head m) ∧
        hasCycle next fuel head head = some true := by
  rcases ends_or_enters next head with ⟨n, hend⟩ | ⟨m, henter⟩
  · refine ⟨n + 1, Or.inl ⟨⟨n, hend⟩, fun fuel hfuel => ?_⟩⟩
    obtain ⟨⟨walker, runner, hchase, hnil⟩, hhas⟩ :=
      chase_ended (t := 0) hend (Nat.zero_le n) (Nat.lt_of_succ_le hfuel)
    have hchase' : chase next fuel head head = some (walker, runner) := hchase
    refine ⟨?_, hhas⟩
    simp only [detectCycle, hchase', Option.bind_eq_bind, Option.bind_some, hnil]
  · obtain ⟨p, hp, hagain⟩ := henter.again
    have hgoes := circular_not_ended henter
    -- a time behind the entry at which the runner is whole rounds ahead
    obtain ⟨u, hu⟩ : ∃ u, u = m + (p * (m + 1) - m) := ⟨_, rfl⟩
    have hrounds : u = (m + 1) * p := by
      have := Nat.le_mul_of_pos_left (m + 1) hp
      rw [hu, Nat.add_sub_cancel' (by omega), Nat.mul_comm]
    have hmeet : path next head u = path next head (2 * u) := by
      have hround := path_periodic hagain (p * (m + 1) - m) (m + 1)
      rw [← hu, ← hrounds] at hround
      rw [Nat.two_mul, hround]
    have hpos : 0 < u := by
      rw [hrounds]
      exact Nat.mul_pos (Nat.succ_pos m) hp
    refine ⟨u + m + 1, Or.inr ⟨m, henter, fun fuel hfuel => ?_⟩⟩
    obtain ⟨⟨v, hv, hvv, hchase⟩, hhas⟩ :=
      chase_meets (t := 0) hgoes hmeet hpos (le_trans (by omega) hfuel)
    refine ⟨?_, hhas⟩
    have hchase' : chase next fuel head head =
        some (path next head v, path next head (2 * v)) := hchase
    obtain ⟨r, hr⟩ := Option.ne_none_iff_exists'.mp (hgoes (2 * v + 1))
    have hbind : (path next head (2 * v)).bind next = some r := hr
    simp only [detectCycle, hchase', Option.bind_eq_bind, Option.bind_some, hbind]
    -- from there and from the head it is equally far to the entry, up to whole rounds
    have hentry : path next head (v + m) = path next head m := by
      have hvv' : path next head (v + v) = path next head v := by rw [← Nat.two_mul, hvv]
      have hround := path_periodic hvv' (m + v * p - v) 1
      have hle := Nat.le_mul_of_pos_right v hp
      rw [Nat.add_sub_cancel' (by omega), Nat.one_mul] at hround
      calc path next head (v + m) = path next head (m + v + v * p) := by
            rw [path_periodic hagain, Nat.add_comm]
        _ = path next head (m + v * p + v) := by rw [Nat.add_right_comm]
        _ = path next head (m + v * p) := hround
        _ = path next head m := path_periodic hagain 0 v
    refine meet_meets hgoes hentry 0 (Nat.zero_le m) (fun k hk heq => ?_) (by omega)
    rw [Nat.add_comm] at heq
    exact henter.first k hk v hv heq

def lasso : Fin 3 → Option (Fin 3)
  | 0 => some 1
  | 1 => some 2
  | 2 => some 1

theorem detect_cycle_finds_sample : ∃ bound : ℕ,
    ((∃ n, path lasso (some 0) n = none) ∧ ∀ fuel, bound ≤ fuel →
      detectCycle lasso fuel (some 0) = some none ∧
        hasCycle lasso fuel (some 0) (some 0) = some false) ∨
    ∃ m, EntersAt lasso (some 0) m ∧ ∀ fuel, bound ≤ fuel →
      detectCycle lasso fuel (some 0) = some (path lasso (some 0) m) ∧
        hasCycle lasso fuel (some 0) (some 0) = some true :=
  detect_cycle_finds lasso (some 0)

example : detectCycle lasso 9 (some 0) = some (some 1) := by decide

end Cycle

section Intersection

variable {next : α → Option α} {headA headB : Option α} {x : α} {i j k u lenA lenB : ℕ}

def route (next : α → Option α) (head other : Option α) : ℕ → Option α
  | 0 => head
  | k + 1 => advance next other (route next head other k)

structure HasLength (next : α → Option α) (head : Option α) (n : ℕ) : Prop where
  ends : path next head n = none
  inside : ∀ k < n, path next head k ≠ none

omit [DecidableEq α] in
theorem exists_length (hend : ∃ n, path next headA n = none) : ∃ n, HasLength next headA n :=
  ⟨Nat.find hend, Nat.find_spec hend, fun _ hk => Nat.find_min hend hk⟩

omit [DecidableEq α] in
theorem route_first (hlen : HasLength next headA lenA) (hk : k ≤ lenA) :
    route next headA headB k = path next headA k := by
  induction k with
  | zero => rfl
  | succ k ih =>
    obtain ⟨y, hy⟩ := Option.ne_none_iff_exists'.mp (hlen.inside k (by omega))
    rw [route, ih (by omega), path, hy]
    rfl

omit [DecidableEq α] in
theorem route_second (hA : HasLength next headA lenA) (hB : HasLength next headB lenB)
    (hk : k ≤ lenB) : route next headA headB (lenA + 1 + k) = path next headB k := by
  induction k with
  | zero =>
    rw [Nat.add_zero, route, route_first hA (Nat.le_refl lenA), hA.ends]
    rfl
  | succ k ih =>
    obtain ⟨y, hy⟩ := Option.ne_none_iff_exists'.mp (hB.inside k (by omega))
    rw [← Nat.add_assoc, route, ih (by omega), path, hy]
    rfl

theorem intersect_meets (hmeet : route next headA headB u = route next headB headA u) (hk : k ≤ u)
    (hapart : ∀ k < u, route next headA headB k ≠ route next headB headA k) {fuel : ℕ}
    (hfuel : u - k < fuel) :
    intersect next headA headB fuel (route next headA headB k) (route next headB headA k) =
      some (route next headA headB u) := by
  induction fuel generalizing k with
  | zero => omega
  | succ fuel ih =>
    rw [intersect]
    by_cases hku : k = u
    · subst hku
      rw [if_neg (not_not.mpr hmeet)]
    · rw [if_pos (hapart k (by omega))]
      exact ih (k := k + 1) (by omega) (by omega)

omit [DecidableEq α] in
/-- A node of both lists is as far from the end in one as in the other. -/
theorem common_rest (hA : HasLength next headA lenA) (hB : HasLength next headB lenB)
    (hi : path next headA i = some x) (hj : path next headB j = some x) :
    i < lenA ∧ j < lenB ∧ lenA - i = lenB - j := by
  have hil : i < lenA := by
    by_contra hle
    rw [path_ended hA.ends (by omega)] at hi
    cases hi
  have hjl : j < lenB := by
    by_contra hle
    rw [path_ended hB.ends (by omega)] at hj
    cases hj
  have hshift := path_shift (hi.trans hj.symm)
  refine ⟨hil, hjl, ?_⟩
  by_contra hne
  rcases Nat.lt_or_gt_of_ne hne with hlt | hlt
  · refine hB.inside (j + (lenA - i)) (by omega) ?_
    rw [← hshift, Nat.add_sub_cancel' (Nat.le_of_lt hil)]
    exact hA.ends
  · refine hA.inside (i + (lenB - j)) (by omega) ?_
    rw [hshift, Nat.add_sub_cancel' (Nat.le_of_lt hjl)]
    exact hB.ends

omit [DecidableEq α] in
/-- Where the two pointers agree, they are at a node of both lists, or both at an end. -/
theorem agree_cases (hA : HasLength next headA lenA) (hB : HasLength next headB lenB)
    (hu : u ≤ lenA + 1 + lenB) (hmeet : route next headA headB u = route next headB headA u) :
    (route next headA headB u = none ∧ (u = lenA ∧ u = lenB ∨ u = lenA + 1 + lenB)) ∨
      ∃ y i j, route next headA headB u = some y ∧ path next headA i = some y ∧
        path next headB j = some y ∧ (i = u ∧ j = u ∨ u = lenA + 1 + j ∧ u = lenB + 1 + i) := by
  by_cases hua : u ≤ lenA
  · rw [route_first hA hua] at hmeet ⊢
    by_cases hub : u ≤ lenB
    · rw [route_first hB hub] at hmeet
      cases hnode : path next headA u with
      | none =>
        refine Or.inl ⟨rfl, Or.inl ⟨?_, ?_⟩⟩
        · by_contra hne
          exact hA.inside u (by omega) hnode
        · by_contra hne
          exact hB.inside u (by omega) (hmeet.symm.trans hnode)
      | some y => exact Or.inr ⟨y, u, u, rfl, hnode, hmeet.symm.trans hnode, Or.inl ⟨rfl, rfl⟩⟩
    · -- the second pointer is behind the first on the same list
      obtain ⟨k, rfl⟩ : ∃ k, u = lenB + 1 + k := ⟨u - (lenB + 1), by omega⟩
      rw [route_second hB hA (by omega)] at hmeet
      obtain ⟨y, hy⟩ := Option.ne_none_iff_exists'.mp (hA.inside k (by omega))
      have := ended_injective hA.ends (hmeet.trans hy) hy
      omega
  · obtain ⟨k, rfl⟩ : ∃ k, u = lenA + 1 + k := ⟨u - (lenA + 1), by omega⟩
    rw [route_second hA hB (by omega)] at hmeet ⊢
    by_cases hub : lenA + 1 + k ≤ lenB
    · rw [route_first hB hub] at hmeet
      obtain ⟨y, hy⟩ := Option.ne_none_iff_exists'.mp (hB.inside k (by omega))
      have := ended_injective hB.ends (hmeet.symm.trans hy) hy
      omega
    · obtain ⟨m, hm⟩ : ∃ m, lenA + 1 + k = lenB + 1 + m := ⟨lenA + 1 + k - (lenB + 1), by omega⟩
      rw [hm, route_second hB hA (by omega)] at hmeet
      cases hnode : path next headB k with
      | none =>
        refine Or.inl ⟨rfl, Or.inr ?_⟩
        by_contra hne
        exact hB.inside k (by omega) hnode
      | some y => exact Or.inr ⟨y, m, k, rfl, hmeet.symm.trans hnode, hnode, Or.inr ⟨rfl, hm⟩⟩

/-- Where the two first agree is the first node of one list that is one of the other. -/
theorem first_common (hA : HasLength next headA lenA) (hB : HasLength next headB lenB)
    (hi : path next headA i = some x) (hj : path next headB j = some x)
    (hfirst : ∀ k < i, ∀ y, path next headA k = some y → ∀ m, path next headB m ≠ some y)
    (hmeet : route next headA headB u = route next headB headA u)
    (hapart : ∀ k < u, route next headA headB k ≠ route next headB headA k) :
    route next headA headB u = some x := by
  obtain ⟨hil, hjl, hrest⟩ := common_rest hA hB hi hj
  -- at the latest they agree at the node on their second lists
  have hu : u ≤ lenA + 1 + j := by
    by_contra hlt
    have hsame : lenA + 1 + j = lenB + 1 + i := by omega
    refine hapart (lenA + 1 + j) (by omega) ?_
    rw [route_second hA hB (by omega), hsame, route_second hB hA (by omega), hi, hj]
  -- on lists of one length they do so on their first ones
  have hsame : lenA = lenB → u ≤ i := by
    intro hlen
    by_contra hlt
    obtain rfl : i = j := by omega
    refine hapart i (by omega) ?_
    rw [route_first hA (by omega), route_first hB (by omega), hi, hj]
  rcases agree_cases hA hB (by omega) hmeet with ⟨-, hend⟩ | ⟨y, k, m, hy, hk, hm, hwhere⟩
  · omega
  · obtain ⟨hkl, hml, hrest'⟩ := common_rest hA hB hk hm
    have hik : i ≤ k := by
      by_contra hlt
      exact hfirst k (by omega) y hk m hm
    obtain rfl : k = i := by omega
    rw [hy, ← hk, hi]

/-- For two lists that end, getIntersectionNode returns the first node that they share, or null
if they share none. -/
theorem intersection_found (hendA : ∃ n, path next headA n = none)
    (hendB : ∃ n, path next headB n = none) : ∃ bound r, (∀ fuel, bound ≤ fuel →
      getIntersectionNode next fuel headA headB = some r) ∧
    ((r = none ∧ ∀ i j x, path next headA i = some x → path next headB j ≠ some x) ∨
      ∃ i j x, r = some x ∧ path next headA i = some x ∧ path next headB j = some x ∧
        ∀ k < i, ∀ y, path next headA k = some y → ∀ m, path next headB m ≠ some y) := by
  obtain ⟨lenA, hA⟩ := exists_length hendA
  obtain ⟨lenB, hB⟩ := exists_length hendB
  by_cases hnull : headA = none ∨ headB = none
  · refine ⟨0, none, fun fuel _ => if_pos hnull, Or.inl ⟨rfl, fun i j x hi hj => ?_⟩⟩
    rcases hnull with rfl | rfl
    · rw [path_ended (m := 0) rfl (Nat.zero_le i)] at hi
      cases hi
    · rw [path_ended (m := 0) rfl (Nat.zero_le j)] at hj
      cases hj
  · have hends : route next headA headB (lenA + 1 + lenB) =
        route next headB headA (lenA + 1 + lenB) := by
      have hsum : lenA + 1 + lenB = lenB + 1 + lenA := by omega
      rw [route_second hA hB (Nat.le_refl lenB), hsum, route_second hB hA (Nat.le_refl lenA),
        hA.ends, hB.ends]
    have hlast : ∃ u, route next headA headB u = route next headB headA u := ⟨_, hends⟩
    have hmeet := Nat.find_spec hlast
    have hu : Nat.find hlast ≤ lenA + 1 + lenB := Nat.find_min' hlast hends
    have hapart : ∀ k < Nat.find hlast, route next headA headB k ≠ route next headB headA k :=
      fun k hk => Nat.find_min hlast hk
    refine ⟨Nat.find hlast + 1, route next headA headB (Nat.find hlast), fun fuel hfuel => ?_, ?_⟩
    · rw [getIntersectionNode, if_neg hnull]
      exact intersect_meets (k := 0) hmeet (Nat.zero_le _) hapart (by omega)
    · classical
      by_cases hshare : ∃ i j x, path next headA i = some x ∧ path next headB j = some x
      · refine Or.inr ⟨Nat.find hshare, ?_⟩
        obtain ⟨j, x, hi, hj⟩ := Nat.find_spec hshare
        have hfirst : ∀ k < Nat.find hshare, ∀ y, path next headA k = some y →
            ∀ m, path next headB m ≠ some y := fun k hk y hy m hm =>
          Nat.find_min hshare hk ⟨m, y, hy, hm⟩
        exact ⟨j, x, first_common hA hB hi hj hfirst hmeet hapart, hi, hj, hfirst⟩
      · refine Or.inl ⟨?_, fun i j x hi hj => hshare ⟨i, j, x, hi, hj⟩⟩
        rcases agree_cases hA hB hu hmeet with ⟨hnil, -⟩ | ⟨y, i, j, -, hi, hj, -⟩
        · exact hnil
        · exact absurd ⟨i, j, y, hi, hj⟩ hshare

def fork : Fin 3 → Option (Fin 3)
  | 0 => some 2
  | 1 => some 2
  | 2 => none

theorem intersection_found_sample : ∃ bound r, ∀ fuel, bound ≤ fuel →
    getIntersectionNode fork fuel (some 0) (some 1) = some r := by
  obtain ⟨bound, r, hfound, -⟩ := intersection_found
    (show ∃ n, path fork (some 0) n = none from ⟨2, rfl⟩)
    (show ∃ n, path fork (some 1) n = none from ⟨2, rfl⟩)
  exact ⟨bound, r, hfound⟩

example : getIntersectionNode fork 9 (some 0) (some 1) = some (some 2) := by decide

end Intersection

end ListPointers
