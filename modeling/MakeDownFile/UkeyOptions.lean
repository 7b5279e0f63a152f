import MakeDownFile.TextBuffers

/-! # The options of the token client

main goes over its arguments once. An option with a value steps on to the next argument
without asking whether there is one. -/
namespace UkeyOptions

open TextBuffers

/-- A C string without its NUL. -/
abbrev Arg := List UInt8

def lower (b : UInt8) : UInt8 := if 65 ≤ b ∧ b ≤ 90 then b + 32 else b

/-- Equal up to the case of ASCII letters. -/
def strcasecmp (a b : Arg) : Bool := a.map lower == b.map lower

inductive ValueOption where
  | authKey
  | authKeyNew
  | userPin
  | ca
  | sc
  | ec
  | s
  deriving DecidableEq

inductive Kind where
  | help
  | ukeysslcli
  | verify
  | value (v : ValueOption)
  | unknown
  deriving DecidableEq

def classify (arg : Arg) : Kind :=
  if strcasecmp arg (ascii "--help") || strcasecmp arg (ascii "-h") then .help
  else if strcasecmp arg (ascii "--Ukeysslcli") then .ukeysslcli
  else if strcasecmp arg (ascii "-AuthKey") then .value .authKey
  else if strcasecmp arg (ascii "-AuthKeyNew") then .value .authKeyNew
  else if strcasecmp arg (ascii "-UserPin") then .value .userPin
  else if strcasecmp arg (ascii "-ca") then .value .ca
  else if strcasecmp arg (ascii "-sc") then .value .sc
  else if strcasecmp arg (ascii "-ec") then .value .ec
  else if strcasecmp arg (ascii "-s") then .value .s
  else if strcasecmp arg (ascii "--verify") then .verify
  else .unknown

structure Options where
  ukeysslcli : Bool
  userPin : Option Arg
  authKey : Option (List UInt8)
  authKeyNew : Option (List UInt8)
  authKeyNewLen : ℕ
  ca : Option Arg
  signCert : Option Arg
  encCert : Option Arg
  verifyPeer : Bool
  host : Option Arg
  deriving DecidableEq

def Options.initial : Options := ⟨false, none, none, none, 0, none, none, none, false, none⟩

/-- What a value option does with its value, which may be NULL. A key is decoded by
`hexstr2buf`, for which NULL is undefined, and a key that cannot be decoded is NULL. -/
def store (hexstr2buf : Arg → Option (List UInt8)) (o : Options) :
    ValueOption → Option Arg → Option Options
  | .authKey, some value => some { o with authKey := hexstr2buf value }
  | .authKey, none => none
  | .authKeyNew, some value =>
    let key := hexstr2buf value
    some { o with authKeyNew := key, authKeyNewLen := (key.map List.length).getD o.authKeyNewLen }
  | .authKeyNew, none => none
  | .userPin, value => some { o with userPin := value }
  | .ca, value => some { o with ca := value }
  | .sc, value => some { o with signCert := value }
  | .ec, value => some { o with encCert := value }
  | .s, value => some { o with host := value }

/-- What the loop does: it reads `argv[i]`, and it takes an option with the value read for it. -/
inductive Step where
  | read (i : ℕ)
  | accept (v : ValueOption) (value : Option Arg)

inductive Exit where
  | error
  | finished (o : Options)
  | undefined

structure Outcome where
  log : List Step
  exit : Exit

def Outcome.after (o : Outcome) (log : List Step) : Outcome := ⟨log ++ o.log, o.exit⟩

/-- The value of an option at `err` is stored, and the loop goes on if that is defined. -/
def accept (hexstr2buf : Arg → Option (List UInt8)) (err : ℕ) (v : ValueOption)
    (value : Option Arg) (o : Options) (next : Options → Outcome) : Outcome :=
  match store hexstr2buf o v value with
  | none => ⟨[.read err, .read (err + 1)], .undefined⟩
  | some o => (next o).after [.read err, .read (err + 1), .accept v value]

/-- The loop from `argv[err]` on; behind the last argument stands NULL. -/
def optionLoop (hexstr2buf : Arg → Option (List UInt8)) : ℕ → List Arg → Options → Outcome
  | _, [], o => ⟨[], .finished o⟩
  | err, arg :: rest, o =>
    match classify arg with
    | .help | .unknown => ⟨[.read err], .error⟩
    | .ukeysslcli =>
      (optionLoop hexstr2buf (err + 1) rest { o with ukeysslcli := true }).after [.read err]
    | .verify =>
      (optionLoop hexstr2buf (err + 1) rest { o with verifyPeer := true }).after [.read err]
    | .value v =>
      match rest with
      | [] => accept hexstr2buf err v none o fun o => ⟨[], .finished o⟩
      | value :: rest =>
        accept hexstr2buf err v (some value) o fun o => optionLoop hexstr2buf (err + 2) rest o

def parseOptions (hexstr2buf : Arg → Option (List UInt8)) (argv : List Arg) : Outcome :=
  optionLoop hexstr2buf 1 argv.tail Options.initial

/-- Flags and options with their values, and then an option whose value would be next. -/
inductive Dangling : List Arg → Prop where
  | last {arg : Arg} {v : ValueOption} (h : classify arg = .value v) : Dangling [arg]
  | flag {arg : Arg} {rest : List Arg}
      (h : classify arg = .ukeysslcli ∨ classify arg = .verify) (hrest : Dangling rest) :
      Dangling (arg :: rest)
  | value {arg value : Arg} {rest : List Arg} {v : ValueOption}
      (h : classify arg = .value v) (hrest : Dangling rest) : Dangling (arg :: value :: rest)

def ReadsFrom (lo : ℕ) (log : List Step) : Prop := ∀ i, .read i ∈ log → lo ≤ i

/-- Nothing is read from `argv[hi]` on, and no option is taken without its value. -/
structure Within (hi : ℕ) (log : List Step) : Prop where
  reads : ∀ i, .read i ∈ log → i < hi
  present : ∀ v value, .accept v value ∈ log → value ≠ none

section Loop

variable {hexstr2buf : Arg → Option (List UInt8)} {err hi lo : ℕ} {log log' : List Step}
  {arg value : Arg} {rest : List Arg} {v : ValueOption} {o : Options}

theorem within_append : Within hi (log ++ log') ↔ Within hi log ∧ Within hi log' := by
  constructor
  · intro h
    refine ⟨⟨fun i hi => ?_, fun v a ha => ?_⟩, ⟨fun i hi => ?_, fun v a ha => ?_⟩⟩
    · exact h.reads i (List.mem_append_left _ hi)
    · exact h.present v a (List.mem_append_left _ ha)
    · exact h.reads i (List.mem_append_right _ hi)
    · exact h.present v a (List.mem_append_right _ ha)
  · rintro ⟨h, h'⟩
    refine ⟨fun i hi => ?_, fun v a ha => ?_⟩
    · exact (List.mem_append.mp hi).elim (h.reads i) (h'.reads i)
    · exact (List.mem_append.mp ha).elim (h.present v a) (h'.present v a)

theorem within_read : Within hi [.read err] ↔ err < hi := by
  constructor
  · exact fun h => h.reads err (List.mem_singleton_self _)
  · intro h
    refine ⟨fun i hm => ?_, fun v a hm => ?_⟩
    · cases List.mem_singleton.mp hm
      exact h
    · cases List.mem_singleton.mp hm

theorem store_present (hexstr2buf : Arg → Option (List UInt8)) (o : Options) (v : ValueOption)
    (value : Arg) : ∃ o', store hexstr2buf o v (some value) = some o' := by
  cases v <;> exact ⟨_, rfl⟩

theorem accept_present (hexstr2buf : Arg → Option (List UInt8)) (err : ℕ) (v : ValueOption)
    (value : Arg) (o : Options) (next : Options → Outcome) :
    ∃ o', accept hexstr2buf err v (some value) o next =
      (next o').after [.read err, .read (err + 1), .accept v (some value)] := by
  obtain ⟨o', ho⟩ := store_present hexstr2buf o v value
  refine ⟨o', ?_⟩
  rw [accept, ho]

theorem accept_reads_behind {next : Options → Outcome} :
    .read (err + 1) ∈ (accept hexstr2buf err v none o next).log := by
  unfold accept
  cases store hexstr2buf o v none with
  | none => exact List.mem_cons_of_mem _ List.mem_cons_self
  | some o => exact List.mem_cons_of_mem _ List.mem_cons_self

theorem dangling_flag (h : classify arg = .ukeysslcli ∨ classify arg = .verify) :
    Dangling (arg :: rest) ↔ Dangling rest := by
  constructor
  · intro hd
    cases hd with
    | last hv => rcases h with h | h <;> cases h.symm.trans hv
    | flag _ hrest => exact hrest
    | value hv => rcases h with h | h <;> cases h.symm.trans hv
  · exact .flag h

theorem dangling_value (h : classify arg = .value v) :
    Dangling (arg :: value :: rest) ↔ Dangling rest := by
  constructor
  · intro hd
    cases hd with
    | flag hf => rcases hf with hf | hf <;> cases h.symm.trans hf
    | value _ hrest => exact hrest
  · exact .value h

theorem not_dangling_stop (h : classify arg = .help ∨ classify arg = .unknown) :
    ¬ Dangling (arg :: rest) := by
  intro hd
  cases hd with
  | last hv => rcases h with h | h <;> cases h.symm.trans hv
  | flag hf => rcases h with h | h <;> rcases hf with hf | hf <;> cases h.symm.trans hf
  | value hv => rcases h with h | h <;> cases h.symm.trans hv

theorem option_loop_within (hexstr2buf : Arg → Option (List UInt8)) (err : ℕ) (args : List Arg)
    (o : Options) :
    Within (err + args.length) (optionLoop hexstr2buf err args o).log ↔ ¬ Dangling args := by
  induction err, args, o using optionLoop.induct with
  | case1 err o => exact iff_of_true ⟨nofun, nofun⟩ nofun
  | case2 err arg rest o hhelp =>
    simp only [optionLoop, hhelp]
    refine iff_of_true (within_read.mpr ?_) (not_dangling_stop (Or.inl hhelp))
    simp
  | case3 err arg rest o hunknown =>
    simp only [optionLoop, hunknown]
    refine iff_of_true (within_read.mpr ?_) (not_dangling_stop (Or.inr hunknown))
    simp
  | case4 err arg rest o hflag ih =>
    have hlen : err + 1 + rest.length = err + (arg :: rest).length := by
      rw [List.length_cons]
      omega
    simp only [optionLoop, hflag, Outcome.after]
    rw [within_append, dangling_flag (Or.inl hflag), ← ih, hlen, within_read]
    exact and_iff_right (by simp)
  | case5 err arg rest o hflag ih =>
    have hlen : err + 1 + rest.length = err + (arg :: rest).length := by
      rw [List.length_cons]
      omega
    simp only [optionLoop, hflag, Outcome.after]
    rw [within_append, dangling_flag (Or.inr hflag), ← ih, hlen, within_read]
    exact and_iff_right (by simp)
  | case6 err arg o v hv =>
    -- the last argument wants a value: what is read for it lies behind the arguments
    simp only [optionLoop, hv]
    refine iff_of_false (fun h => ?_) (fun h => h (.last hv))
    exact absurd (h.reads (err + 1) accept_reads_behind) (by simp)
  | case7 err arg o v hv value rest ih =>
    simp only [optionLoop, hv]
    obtain ⟨o', ho⟩ := accept_present hexstr2buf err v value o
      fun o => optionLoop hexstr2buf (err + 2) rest o
    have hlen : err + 2 + rest.length = err + (arg :: value :: rest).length := by
      rw [List.length_cons, List.length_cons]
      omega
    rw [ho, Outcome.after, within_append, dangling_value hv, ← ih o', hlen]
    refine and_iff_right ⟨fun i hi => ?_, fun v' a ha => ?_⟩
    · simp only [List.mem_cons, Step.read.injEq, reduceCtorEq, List.not_mem_nil, or_false] at hi
      rw [List.length_cons, List.length_cons]
      omega
    · simp only [List.mem_cons, Step.accept.injEq, reduceCtorEq, List.not_mem_nil, or_false,
        false_or] at ha
      rw [ha.2]
      exact Option.some_ne_none value

theorem reads_from_append (h : ReadsFrom lo log) (h' : ReadsFrom lo log') :
    ReadsFrom lo (log ++ log') := by
  intro i hi
  exact (List.mem_append.mp hi).elim (h i) (h' i)

theorem reads_from_mono (hle : lo ≤ err) (h : ReadsFrom err log) : ReadsFrom lo log :=
  fun i hi => Nat.le_trans hle (h i hi)

theorem reads_from_read : ReadsFrom err [.read err] := by
  intro i hi
  cases List.mem_singleton.mp hi
  exact Nat.le_refl err

theorem accept_reads_from {next : Options → Outcome} {a : Option Arg}
    (hnext : ∀ o, ReadsFrom err (next o).log) :
    ReadsFrom err (accept hexstr2buf err v a o next).log := by
  have hread : ReadsFrom err [.read err, .read (err + 1)] :=
    reads_from_append reads_from_read (reads_from_mono (Nat.le_succ err) reads_from_read)
  have haccept : ReadsFrom err [.accept v a] := by
    intro i hi
    cases List.mem_singleton.mp hi
  unfold accept
  cases store hexstr2buf o v a with
  | none => exact hread
  | some o => exact reads_from_append (reads_from_append hread haccept) (hnext o)

theorem option_loop_reads_from (hexstr2buf : Arg → Option (List UInt8)) (err : ℕ)
    (args : List Arg) (o : Options) :
    ReadsFrom err (optionLoop hexstr2buf err args o).log := by
  induction err, args, o using optionLoop.induct with
  | case1 err o => exact nofun
  | case2 err arg rest o hhelp =>
    simp only [optionLoop, hhelp]
    exact reads_from_read
  | case3 err arg rest o hunknown =>
    simp only [optionLoop, hunknown]
    exact reads_from_read
  | case4 err arg rest o hflag ih =>
    simp only [optionLoop, hflag, Outcome.after]
    exact reads_from_append reads_from_read (reads_from_mono (Nat.le_succ err) ih)
  | case5 err arg rest o hflag ih =>
    simp only [optionLoop, hflag, Outcome.after]
    exact reads_from_append reads_from_read (reads_from_mono (Nat.le_succ err) ih)
  | case6 err arg o v hv =>
    simp only [optionLoop, hv]
    exact accept_reads_from fun _ => nofun
  | case7 err arg o v hv value rest ih =>
    simp only [optionLoop, hv]
    exact accept_reads_from fun o => reads_from_mono (Nat.le_add_right err 2) (ih o)

end Loop

/-- What the option loop is to do with an argument vector: it reads its arguments only, takes
options with values that are there, and ends with an error where a value is missing. -/
structure ParsesSafely (argv : List Arg) (out : Outcome) : Prop where
  reads : ∀ i, .read i ∈ out.log → 1 ≤ i ∧ i < argv.length
  present : ∀ v value, .accept v value ∈ out.log → value ≠ none
  missing : Dangling argv.tail → out.exit = .error

/-- Exactly when no value option without a value is reached, the loop keeps to its arguments. -/
theorem options_parsed_safely_iff (hexstr2buf : Arg → Option (List UInt8)) (argv : List Arg) :
    ParsesSafely argv (parseOptions hexstr2buf argv) ↔ ¬ Dangling argv.tail := by
  cases argv with
  | nil => exact iff_of_true ⟨nofun, nofun, nofun⟩ nofun
  | cons name args =>
    have hwithin := option_loop_within hexstr2buf 1 args Options.initial
    have hfrom := option_loop_reads_from hexstr2buf 1 args Options.initial
    have hlen : (name :: args).length = 1 + args.length := by
      rw [List.length_cons, Nat.add_comm]
    constructor
    · intro h
      refine hwithin.mp ⟨fun i hi => ?_, h.present⟩
      rw [← hlen]
      exact (h.reads i hi).2
    · intro hcomplete
      have h := hwithin.mpr hcomplete
      refine ⟨fun i hi => ⟨hfrom i hi, ?_⟩, h.present, fun hd => absurd hd hcomplete⟩
      rw [hlen]
      exact h.reads i hi

/-- `client -ca` is accepted, with nothing for the CA. -/
theorem missing_value_accepted :
    ¬ ParsesSafely [ascii "client", ascii "-ca"]
      (parseOptions (fun _ => none) [ascii "client", ascii "-ca"]) := by
  have hread : .read 2 ∈ (parseOptions (fun _ => none) [ascii "client", ascii "-ca"]).log :=
    List.mem_of_getElem? (i := 1) rfl
  exact fun h => absurd (h.reads 2 hread).2 (Nat.lt_irrefl 2)

end UkeyOptions
