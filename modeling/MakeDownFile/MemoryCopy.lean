import MakeDownFile.ArrayRanges

/-! # Copying in memory

memcpy and strcpy copy forwards, byte by byte. Where source and destination overlap, they may read
what they have written. -/
namespace MemoryCopy

open ArrayRanges

variable {α : Type}

def memcpy (n : ℤ) : ℕ → (ℤ → α) → ℤ → ℤ → Option (ℤ → α)
  | 0, mem, _, _ => some mem
  | count + 1, mem, dest, src => do
    let c ← load n mem src
    let mem ← store n mem dest c
    memcpy n count mem (dest + 1) (src + 1)

/-- The loop of strcpy, with at most so many turns. -/
def strcpy (n : ℤ) : ℕ → (ℤ → UInt8) → ℤ → ℤ → Option (ℤ → UInt8)
  | 0, _, _, _ => none
  | turns + 1, mem, dst, src => do
    let c ← load n mem src
    let mem ← store n mem dst c
    if c ≠ 0 then strcpy n turns mem (dst + 1) (src + 1) else some mem

def Copied (mem mem' : ℤ → α) (dest src : ℤ) (count : ℕ) : Prop :=
  ∀ x, src ≤ x → x < src + count → mem' (dest + (x - src)) = mem x

def Repeats (mem : ℤ → α) (dest src : ℤ) (count : ℕ) : Prop :=
  ∀ x, src ≤ x → x + (dest - src) < src + count → mem (x + (dest - src)) = mem x

section Memcpy

/-- Copied to the front, every byte is read before anything is written over it. -/
theorem memcpy_down {n : ℤ} {count : ℕ} (mem : ℤ → α) (dest src : ℤ) (hle : dest ≤ src)
    (hd : 0 ≤ dest) (hsn : src + count ≤ n) :
    ∃ mem', memcpy n count mem dest src = some mem' ∧
      ∀ x, mem' x = if dest ≤ x ∧ x < dest + count then mem (src + (x - dest)) else mem x := by
  induction count generalizing mem dest src with
  | zero =>
    refine ⟨mem, rfl, fun x => ?_⟩
    rw [if_neg (by omega)]
  | succ count ih =>
    have hload : load n mem src = some (mem src) := load_eq (by omega) (by omega)
    have hstore : store n mem dest (mem src) = some (Function.update mem dest (mem src)) :=
      store_eq hd (by omega)
    obtain ⟨mem', hcopy, hmem⟩ := ih (Function.update mem dest (mem src)) (dest + 1) (src + 1)
      (by omega) (by omega) (by omega)
    refine ⟨mem', ?_, fun x => ?_⟩
    · rw [memcpy, hload]
      simp only [Option.bind_eq_bind, Option.bind_some, hstore]
      exact hcopy
    · rw [hmem x]
      by_cases hx : x = dest
      · subst x
        rw [if_neg (by omega), if_pos (by omega), Function.update_self, sub_self, add_zero]
      by_cases hin : dest + 1 ≤ x ∧ x < dest + 1 + count
      · rw [if_pos hin, if_pos (by omega), Function.update_of_ne (by omega)]
        congr 1
        omega
      · rw [if_neg hin, if_neg (by omega), Function.update_of_ne hx]

/-- Copied to the back, every byte of the destination ends up as its source byte ends up. -/
theorem memcpy_up {n : ℤ} {count : ℕ} (mem : ℤ → α) (dest src : ℤ) (hlt : src < dest)
    (hs : 0 ≤ src) (hdn : dest + count ≤ n) :
    ∃ mem', memcpy n count mem dest src = some mem' ∧
      (∀ x, ¬(dest ≤ x ∧ x < dest + count) → mem' x = mem x) ∧
      ∀ x, src ≤ x → x < src + count → mem' (dest + (x - src)) = mem' x := by
  induction count generalizing mem dest src with
  | zero => exact ⟨mem, rfl, fun _ _ => rfl, fun x hx hx' => by omega⟩
  | succ count ih =>
    have hload : load n mem src = some (mem src) := load_eq hs (by omega)
    have hstore : store n mem dest (mem src) = some (Function.update mem dest (mem src)) :=
      store_eq (by omega) (by omega)
    obtain ⟨mem', hcopy, hout, hin⟩ := ih (Function.update mem dest (mem src)) (dest + 1)
      (src + 1) (by omega) (by omega) (by omega)
    refine ⟨mem', ?_, fun x hx => ?_, fun x hx hx' => ?_⟩
    · rw [memcpy, hload]
      simp only [Option.bind_eq_bind, Option.bind_some, hstore]
      exact hcopy
    · rw [hout x (by omega), Function.update_of_ne (by omega)]
    · by_cases h : x = src
      · subst x
        rw [sub_self, add_zero, hout dest (by omega), hout src (by omega), Function.update_self,
          Function.update_of_ne (by omega)]
      · have hnext := hin x (by omega) (by omega)
        have hplace : dest + 1 + (x - (src + 1)) = dest + (x - src) := by omega
        rwa [hplace] at hnext

theorem copied_up_iff {dest src : ℤ} {mem mem' : ℤ → α} {count : ℕ} (hlt : src < dest)
    (hout : ∀ x, ¬(dest ≤ x ∧ x < dest + count) → mem' x = mem x)
    (hin : ∀ x, src ≤ x → x < src + count → mem' (dest + (x - src)) = mem' x) :
    Copied mem mem' dest src count ↔ Repeats mem dest src count := by
  constructor
  · intro h x hx hxd
    have hfar := h (x + (dest - src)) (by omega) hxd
    have hnear := h x hx (by omega)
    rw [← hfar, hin _ (by omega) hxd, ← hnear]
    congr 1
    omega
  · intro h x hx hx'
    -- the byte at x was itself written when x is in the destination, and that for the byte before
    obtain ⟨k, rfl⟩ : ∃ k : ℕ, x = src + k := ⟨(x - src).toNat, by omega⟩
    induction k using Nat.strong_induction_on with
    | _ k ih =>
      rw [hin _ hx hx']
      by_cases hk : src + k < dest
      · exact hout _ (by omega)
      · have hprev := ih (k - (dest - src).toNat) (by omega) (by omega) (by omega)
        have hrep := h (src + (k - (dest - src).toNat : ℕ)) (by omega) (by omega)
        have hplace : src + (k - (dest - src).toNat : ℕ) + (dest - src) = src + k := by omega
        rw [hplace] at hrep
        rw [hrep, ← hprev]
        congr 1
        omega

theorem memcpy_copies {n : ℤ} {count : ℕ} (mem : ℤ → α) (dest src : ℤ) (hs : 0 ≤ src)
    (hd : 0 ≤ dest) (hsn : src + count ≤ n) (hdn : dest + count ≤ n)
    (h : dest ≤ src ∨ Repeats mem dest src count) :
    ∃ mem', memcpy n count mem dest src = some mem' ∧ Copied mem mem' dest src count := by
  by_cases hle : dest ≤ src
  · obtain ⟨mem', hcopy, hmem⟩ := memcpy_down mem dest src hle hd hsn
    refine ⟨mem', hcopy, fun x hx hx' => ?_⟩
    rw [hmem, if_pos (by omega)]
    congr 1
    omega
  · obtain ⟨mem', hcopy, hout, hin⟩ := memcpy_up mem dest src (not_le.mp hle) hs hdn
    refine ⟨mem', hcopy, (copied_up_iff (not_le.mp hle) hout hin).mpr ?_⟩
    exact h.resolve_left hle

/-- memcpy copies its bytes in two cases only: to the front, or where the source repeats itself
after as many bytes as the destination is behind. -/
theorem memcpy_copies_iff {n dest src : ℤ} {mem : ℤ → α} {count : ℕ} (hs : 0 ≤ src) (hd : 0 ≤ dest)
    (hsn : src + count ≤ n) (hdn : dest + count ≤ n) :
    (∃ mem', memcpy n count mem dest src = some mem' ∧ Copied mem mem' dest src count) ↔
      dest ≤ src ∨ Repeats mem dest src count := by
  constructor
  · rintro ⟨final, hsome, hcopied⟩
    by_cases hle : dest ≤ src
    · exact Or.inl hle
    · obtain ⟨mem', hcopy, hout, hin⟩ := memcpy_up mem dest src (not_le.mp hle) hs hdn
      obtain rfl : mem' = final := Option.some.inj (hcopy.symm.trans hsome)
      exact Or.inr ((copied_up_iff (not_le.mp hle) hout hin).mp hcopied)
  · exact memcpy_copies mem dest src hs hd hsn hdn

theorem memcpy_copies_sample :
    ∃ mem', memcpy 4 3 (fun i => i) 0 1 = some mem' ∧ Copied (fun i => i) mem' 0 1 3 := by
  refine (memcpy_copies_iff ?_ ?_ ?_ ?_).mpr (Or.inl ?_) <;> decide

end Memcpy

section Strcpy

structure IsString (mem : ℤ → UInt8) (src : ℤ) (len : ℕ) : Prop where
  nul : mem (src + len) = 0
  text : ∀ x, src ≤ x → x < src + len → mem x ≠ 0

/-- Where the destination does not cover the string's NUL before it is read, strcpy is memcpy. -/
theorem strcpy_eq_memcpy {n : ℤ} {len : ℕ} (mem : ℤ → UInt8) (dst src : ℤ) (hs : 0 ≤ src)
    (hd : 0 ≤ dst) (hsn : src + len < n) (hdn : dst + len < n) (hstr : IsString mem src len)
    (hfar : dst ≤ src ∨ src + len < dst) :
    strcpy n (len + 1) mem dst src = memcpy n (len + 1) mem dst src := by
  induction len generalizing mem dst src with
  | zero =>
    have hnul : mem src = 0 := by simpa using hstr.nul
    have hdst : dst < n := by omega
    rw [strcpy, memcpy, load_eq hs (by omega)]
    simp only [Option.bind_eq_bind, Option.bind_some, store_eq hd hdst, hnul, ne_eq,
      not_true_eq_false, if_false, memcpy]
  | succ len ih =>
    have hc : mem src ≠ 0 := hstr.text src le_rfl (by omega)
    have hrest : IsString (Function.update mem dst (mem src)) (src + 1) len := by
      constructor
      · rw [Function.update_of_ne (by omega), ← hstr.nul]
        congr 1
        omega
      · intro x hx hx'
        rw [Function.update_of_ne (by omega)]
        exact hstr.text x (by omega) (by omega)
    have hdst : dst < n := by omega
    rw [strcpy, memcpy, load_eq hs (by omega)]
    simp only [Option.bind_eq_bind, Option.bind_some, store_eq hd hdst]
    rw [if_pos hc]
    exact ih _ (dst + 1) (src + 1) (by omega) (by omega) (by omega) (by omega) hrest (by omega)

/-- Where no NUL stands between source and destination, strcpy meets none: what it writes at the
destination is what it read, so the bytes between the two never become one. -/
theorem strcpy_overrun {n : ℤ} (mem : ℤ → UInt8) (dst src : ℤ) (hlt : src < dst)
    (htext : ∀ x, src ≤ x → x < dst → mem x ≠ 0) (turns : ℕ) :
    strcpy n turns mem dst src = none := by
  induction turns generalizing mem dst src with
  | zero => rfl
  | succ turns ih =>
    rw [strcpy]
    by_cases hsn : 0 ≤ src ∧ src < n
    · rw [load_eq hsn.1 hsn.2]
      simp only [Option.bind_eq_bind, Option.bind_some]
      by_cases hdn : 0 ≤ dst ∧ dst < n
      · simp only [store_eq hdn.1 hdn.2, Option.bind_some]
        rw [if_pos (htext src le_rfl hlt)]
        apply ih _ _ _ (by omega)
        intro x hx hx'
        by_cases h : x = dst
        · subst x
          rw [Function.update_self]
          exact htext src le_rfl hlt
        · rw [Function.update_of_ne h]
          exact htext x (by omega) (by omega)
      · simp only [store, if_neg hdn, Option.bind_none]
    · simp only [load, if_neg hsn, Option.bind_eq_bind, Option.bind_none]

/-- strcpy returns with the string copied unless the destination begins inside the string, behind
its first byte; there it does not return within the memory, however many turns it makes. -/
theorem strcpy_copies_iff {n dst src : ℤ} {mem : ℤ → UInt8} {len : ℕ} (hs : 0 ≤ src)
    (hd : 0 ≤ dst) (hsn : src + len < n) (hdn : dst + len < n) (hstr : IsString mem src len) :
    ((∃ turns mem', strcpy n turns mem dst src = some mem' ∧ Copied mem mem' dst src (len + 1)) ↔
      dst ≤ src ∨ src + len < dst) ∧
    (src < dst → dst ≤ src + len → ∀ turns, strcpy n turns mem dst src = none) := by
  have hover : src < dst → dst ≤ src + len → ∀ turns, strcpy n turns mem dst src = none :=
    fun hlt hle => strcpy_overrun mem dst src hlt fun x hx hx' => hstr.text x hx (by omega)
  refine ⟨⟨?_, fun hfar => ?_⟩, hover⟩
  · rintro ⟨turns, mem', hcopy, -⟩
    by_contra hno
    rw [hover (by omega) (by omega) turns] at hcopy
    cases hcopy
  · have hcopy := strcpy_eq_memcpy mem dst src hs hd hsn hdn hstr hfar
    obtain ⟨mem', hsome, hcopied⟩ : ∃ mem', memcpy n (len + 1) mem dst src = some mem' ∧
        Copied mem mem' dst src (len + 1) := by
      apply memcpy_copies mem dst src hs hd (by omega) (by omega)
      exact hfar.imp id fun h x hx hxd => by omega
    exact ⟨len + 1, mem', hcopy.trans hsome, hcopied⟩

theorem strcpy_copies_sample :
    (∃ turns mem', strcpy 6 turns (fun i => if i = 2 then 0 else 7) 3 0 = some mem' ∧
      Copied (fun i => if i = 2 then 0 else 7) mem' 3 0 (2 + 1)) ∧
    ¬ ∃ turns, strcpy 6 turns (fun i => if i = 2 then 0 else 7) 1 0 ≠ none := by
  have hstr : IsString (fun i : ℤ => if i = 2 then 0 else 7) 0 2 := by
    constructor
    · rfl
    · intro x _ hx
      rw [if_neg (by omega)]
      decide
  constructor
  · exact (strcpy_copies_iff (n := 6) (by decide) (by decide) (by decide) (by decide) hstr).1.mpr
      (Or.inr (by decide))
  · rintro ⟨turns, hturns⟩
    exact hturns ((strcpy_copies_iff (n := 6) (by decide) (by decide) (by decide) (by decide)
      hstr).2 (by decide) (by decide) turns)

end Strcpy

end MemoryCopy
