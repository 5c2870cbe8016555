/-
What `Args::parse` has read when it accepts.

A run is described by the arguments that are pushed, each with the state it
is pushed to, and `role` is how `push` takes it there. A flag that awaits its
argument is forgotten by one thing only, a `--`.
-/
import Zmax.Core.CommandLine

namespace Zmax.CommandLine

open Utf8

namespace Args

/-- How an argument is read. -/
inductive Role where
  | separator
  | value (flag : Flag)
  | flag (flag : Flag)
  | positional
  deriving DecidableEq, Repr

def Role.flag? : Role → Option Flag
  | .flag f => some f
  | _ => none

def role (args : Args) (arg : Str) : Role :=
  if ¬ args.onlyPositionals ∧ arg = [dash, dash] then .separator
  else
    match args.flagAwaitingArgument with
    | some flag => .value flag
    | none =>
        if ¬ args.onlyPositionals ∧ [dash].isPrefixOf arg then
          match findFlag args.signature arg with
          | some flag => .flag flag
          | none => .positional
        else .positional

-- == push

theorem findFlag_mem {signature : Signature} {arg : Str} {flag : Flag}
    (h : findFlag signature arg = some flag) : flag ∈ signature.flags := by
  unfold findFlag at h
  split at h
  · exact List.mem_of_find?_eq_some h
  · exact List.mem_of_find?_eq_some h

/-- What a validating `push` does, by the role of its argument. -/
theorem push_cases {args args' : Args} {arg : Str} (hv : args.validate = true)
    (h : args.push arg = .ok args') :
    (role args arg = .separator ∧
        args' = { args with onlyPositionals := true, state := .flag none }) ∨
      (∃ flag, role args arg = .value flag ∧
        args.flagAwaitingArgument = some flag ∧
        args' = { args with
          flags := insertFlag args.flags flag.name arg
          state := .flagArgument flag }) ∨
      (∃ flag, role args arg = .flag flag ∧ args.onlyPositionals = false ∧
        flag ∈ args.signature.flags ∧ (∀ x ∈ args.flags, x.1 ≠ flag.name) ∧
        args' = { args with
          flags := insertFlag args.flags flag.name []
          state := .flag (some flag) }) ∨
      (role args arg = .positional ∧
        args' = { args with
          positionals := args.positionals ++ [arg]
          state := .positional }) := by
  unfold push at h
  unfold role
  by_cases hsep : ¬ args.onlyPositionals ∧ arg = [dash, dash]
  · rw [if_pos hsep] at h ⊢
    exact .inl ⟨rfl, (Except.ok.inj h).symm⟩
  · rw [if_neg hsep] at h ⊢
    cases hawait : args.flagAwaitingArgument with
    | some flag =>
        rw [hawait] at h
        exact .inr (.inl ⟨flag, rfl, rfl, (Except.ok.inj h).symm⟩)
    | none =>
        rw [hawait] at h
        simp only at h ⊢
        by_cases hdash : ¬ args.onlyPositionals ∧ [dash].isPrefixOf arg
        · rw [if_pos hdash] at h ⊢
          cases hflag : findFlag args.signature arg with
          | none =>
              rw [hflag] at h
              simp only [hv, if_true] at h
              cases h
          | some flag =>
              rw [hflag] at h
              simp only at h ⊢
              split at h
              · cases h
              · rename_i hnew
                refine .inr (.inr (.inl ⟨flag, rfl, by simpa using hdash.1,
                  findFlag_mem hflag, ?_, (Except.ok.inj h).symm⟩))
                intro x hx heq
                exact hnew ⟨hv, List.any_eq_true.mpr ⟨x, hx, by simpa using heq⟩⟩
        · rw [if_neg hdash] at h ⊢
          exact .inr (.inr (.inr ⟨rfl, (Except.ok.inj h).symm⟩))

-- == a run

/-- Reading a token leaves all but `only_positionals` as it is. -/
theorem readToken_args {args args' : Args} {t t' : Tokenizer}
    {item : Except ParseArgsError (Option Token)}
    (h : args.readToken t = .ok (args', item, t')) :
    args' = args ∨ args' = { args with onlyPositionals := true } := by
  unfold readToken at h
  split at h
  · obtain ⟨x, -, h⟩ := bind_eq_ok.mp h
    cases h
    exact .inr rfl
  · obtain ⟨⟨item, parser⟩, -, h⟩ := bind_eq_ok.mp h
    cases item with
    | none =>
        cases h
        exact .inl rfl
    | some item =>
        cases item with
        | ok token =>
            cases h
            exact .inl rfl
        | error e =>
            cases h
            exact .inl rfl

variable {σ ε : Type} (tryMap : σ → Token → Except ε (σ × Str))

/-- The arguments a run pushes, each with the state before, and the state it
ends in. -/
inductive Reads : Tokenizer → σ → Args → List (Args × Str) → Args → Prop
  | done {t t' : Tokenizer} {st : σ} {args args' : Args} :
      args.readToken t = .ok (args', .ok none, t') → Reads t st args [] args'
  | step {t t' : Tokenizer} {st st' : σ} {args args' args'' final : Args}
      {token : Token} {arg : Str} {reads : List (Args × Str)} :
      args.readToken t = .ok (args', .ok (some token), t') →
      tryMap st token = .ok (st', arg) → args'.push arg = .ok args'' →
      Reads t' st' args'' reads final →
      Reads t st args ((args', arg) :: reads) final

variable {tryMap}

theorem reads_of_parseLoop {fuel : Nat} {t : Tokenizer} {st : σ}
    {args final : Args}
    (h : parseLoop tryMap fuel t st args = .ok (.ok final)) :
    ∃ reads, Reads tryMap t st args reads final := by
  induction fuel generalizing t st args with
  | zero => cases h
  | succ fuel ih =>
      unfold parseLoop at h
      obtain ⟨⟨args', item, t'⟩, hread, h⟩ := bind_eq_ok.mp h
      cases item with
      | error e => cases h
      | ok token =>
          cases token with
          | none =>
              cases h
              exact ⟨[], .done hread⟩
          | some token =>
              simp only at h
              cases hmap : tryMap st token with
              | error e =>
                  rw [hmap] at h
                  cases h
              | ok x =>
                  obtain ⟨st', arg⟩ := x
                  rw [hmap] at h
                  simp only at h
                  cases hpush : args'.push arg with
                  | error e =>
                      rw [hpush] at h
                      cases h
                  | ok args'' =>
                      rw [hpush] at h
                      obtain ⟨reads, hreads⟩ := ih h
                      exact ⟨_, .step hread hmap hpush hreads⟩

/-- The flags read, in order. -/
def flagsRead (reads : List (Args × Str)) : List Flag :=
  reads.filterMap fun read => (role read.1 read.2).flag?

/-- What the validation is to ensure of a run. -/
structure Validated (signature : Signature) (reads : List (Args × Str))
    (final : Args) : Prop where
  count : signature.positionals.1 ≤ final.positionals.length ∧
    ∀ max, signature.positionals.2 = some max →
      final.positionals.length ≤ max
  known : ∀ flag ∈ flagsRead reads, flag ∈ signature.flags
  once : ((flagsRead reads).map Flag.name).Nodup
  given : ∀ name, (∃ x ∈ final.flags, x.1 = name) ↔
    name ∈ (flagsRead reads).map Flag.name
  /-- A flag that takes an argument is followed by it. -/
  consumed : ∀ pre args arg post flag, reads = pre ++ (args, arg) :: post →
    role args arg = .flag flag → flag.completions.isSome →
    ∃ next rest, post = next :: rest ∧ role next.1 next.2 = .value flag
  /-- No flag is read behind a separator. -/
  separated : ∀ pre args arg post, reads = pre ++ (args, arg) :: post →
    role args arg = .separator → flagsRead post = []

/-- A `--` is pushed while a flag awaits its argument. -/
def Dangling (reads : List (Args × Str)) : Prop :=
  ∃ args arg, (args, arg) ∈ reads ∧ args.onlyPositionals = false ∧
    arg = [dash, dash] ∧ args.flagAwaitingArgument.isSome

-- == the flags

theorem mem_insertFlag {flags : List (Str × Str)} {name arg m : Str} :
    (∃ x ∈ insertFlag flags name arg, x.1 = m) ↔
      m = name ∨ ∃ x ∈ flags, x.1 = m := by
  simp only [insertFlag, List.mem_append, List.mem_filter, decide_eq_true_eq,
    List.mem_singleton]
  constructor
  · rintro ⟨x, ⟨hx, -⟩ | rfl, rfl⟩
    · exact .inr ⟨x, hx, rfl⟩
    · exact .inl rfl
  · rintro (rfl | ⟨x, hx, rfl⟩)
    · exact ⟨_, .inr rfl, rfl⟩
    · by_cases h : x.1 = name
      · exact ⟨(name, arg), .inr rfl, h.symm⟩
      · exact ⟨x, .inl ⟨hx, h⟩, rfl⟩

/-- A flag that awaits its argument has been given. -/
structure Good (args : Args) : Prop where
  validate : args.validate = true
  awaiting : ∀ flag, args.flagAwaitingArgument = some flag →
    ∃ x ∈ args.flags, x.1 = flag.name

theorem good_readToken {args args' : Args} {t t' : Tokenizer}
    {item : Except ParseArgsError (Option Token)} (hgood : Good args)
    (h : args.readToken t = .ok (args', item, t')) :
    Good args' ∧ args'.signature = args.signature ∧
      args'.flags = args.flags ∧
      (args.onlyPositionals = true → args'.onlyPositionals = true) := by
  rcases readToken_args h with rfl | rfl
  · exact ⟨hgood, rfl, rfl, id⟩
  · exact ⟨⟨hgood.validate, hgood.awaiting⟩, rfl, rfl, fun _ => rfl⟩

theorem awaiting_flag {args : Args} {flag : Flag} {state : Option Flag}
    (hstate : args.state = .flag state)
    (h : args.flagAwaitingArgument = some flag) :
    state = some flag ∧ flag.completions.isSome = true := by
  unfold flagAwaitingArgument at h
  rw [hstate] at h
  obtain ⟨hmem, hsome⟩ := Option.filter_eq_some_iff.mp h
  exact ⟨hmem, hsome⟩

/-- What a push adds to the flags, and what it does to the state. -/
theorem good_push {args args' : Args} {arg : Str} (hgood : Good args)
    (h : args.push arg = .ok args') :
    Good args' ∧ args'.signature = args.signature ∧
      (args.onlyPositionals = true → args'.onlyPositionals = true) ∧
      ((∀ flag, role args arg ≠ .flag flag) ∧
          (∀ name, (∃ x ∈ args'.flags, x.1 = name) ↔
            ∃ x ∈ args.flags, x.1 = name) ∨
        ∃ flag, role args arg = .flag flag ∧ args.onlyPositionals = false ∧
          flag ∈ args.signature.flags ∧ (∀ x ∈ args.flags, x.1 ≠ flag.name) ∧
          ∀ name, (∃ x ∈ args'.flags, x.1 = name) ↔
            name = flag.name ∨ ∃ x ∈ args.flags, x.1 = name) := by
  rcases push_cases hgood.validate h with
    ⟨hrole, rfl⟩ | ⟨flag, hrole, hawait, rfl⟩ |
      ⟨flag, hrole, honly, hmem, hnew, rfl⟩ | ⟨hrole, rfl⟩
  · refine ⟨⟨hgood.validate, fun flag hflag => ?_⟩, rfl, fun _ => rfl,
      .inl ⟨by simp [hrole], fun name => Iff.rfl⟩⟩
    exact absurd (awaiting_flag rfl hflag).1 (by simp)
  · have hgiven := hgood.awaiting flag hawait
    refine ⟨⟨hgood.validate, fun f hf => ?_⟩, rfl, id,
      .inl ⟨by simp [hrole], fun name => ?_⟩⟩
    · cases hf
    · rw [mem_insertFlag, or_iff_right_of_imp]
      rintro rfl
      exact hgiven
  · refine ⟨⟨hgood.validate, fun f hf => ?_⟩, rfl, id,
      .inr ⟨flag, hrole, honly, hmem, hnew, fun name => mem_insertFlag⟩⟩
    obtain ⟨hsame, -⟩ := awaiting_flag rfl hf
    rw [← Option.some.inj hsame]
    exact mem_insertFlag.mpr (.inl rfl)
  · refine ⟨⟨hgood.validate, fun f hf => ?_⟩, rfl, id,
      .inl ⟨by simp [hrole], fun name => Iff.rfl⟩⟩
    cases hf

theorem flagsRead_flag {args : Args} {arg : Str} {flag : Flag}
    (h : role args arg = .flag flag) (reads : List (Args × Str)) :
    flagsRead ((args, arg) :: reads) = flag :: flagsRead reads :=
  List.filterMap_cons_some (by rw [h]; rfl)

theorem flagsRead_other {args : Args} {arg : Str}
    (h : ∀ flag, role args arg ≠ .flag flag) (reads : List (Args × Str)) :
    flagsRead ((args, arg) :: reads) = flagsRead reads := by
  refine List.filterMap_cons_none ?_
  simp only
  cases hrole : role args arg with
  | flag flag => exact absurd hrole (h flag)
  | separator => rfl
  | value flag => rfl
  | positional => rfl

/-- The flags of a run: each one of the signature, none given twice, and none
once only positionals are read. -/
theorem reads_flags {t : Tokenizer} {st : σ} {args final : Args}
    {reads : List (Args × Str)} (h : Reads tryMap t st args reads final)
    (hgood : Good args) :
    (Good final ∧ final.signature = args.signature) ∧
      (∀ flag ∈ flagsRead reads, flag ∈ args.signature.flags) ∧
      ((flagsRead reads).map Flag.name).Nodup ∧
      (∀ flag ∈ flagsRead reads, ∀ x ∈ args.flags, x.1 ≠ flag.name) ∧
      (∀ name, (∃ x ∈ final.flags, x.1 = name) ↔
        (∃ x ∈ args.flags, x.1 = name) ∨
          name ∈ (flagsRead reads).map Flag.name) ∧
      (args.onlyPositionals = true → flagsRead reads = []) := by
  induction h with
  | done hread =>
      obtain ⟨hgood', hsig, hflags, -⟩ := good_readToken hgood hread
      refine ⟨⟨hgood', hsig⟩, by simp [flagsRead], by simp [flagsRead],
        by simp [flagsRead], fun name => ?_, fun _ => rfl⟩
      simp [flagsRead, hflags]
  | @step t t' st st' args args' args'' final token arg reads hread hmap hpush
      hreads ih =>
      obtain ⟨hgood', hsig, hflags, honly⟩ := good_readToken hgood hread
      obtain ⟨hgood'', hsig', honly', hrole⟩ := good_push hgood' hpush
      obtain ⟨⟨hfinal, hsigFinal⟩, hknown, honce, hfresh, hgiven, hnone⟩ :=
        ih hgood''
      rw [hsig', hsig] at hsigFinal hknown
      refine ⟨⟨hfinal, hsigFinal⟩, ?_⟩
      rw [← hflags]
      rcases hrole with ⟨hother, hsame⟩ | ⟨flag, hflag, hfree, hmem, hnew, hadd⟩
      · rw [flagsRead_other hother]
        refine ⟨hknown, honce, fun flag hflag x hx => ?_, fun name => ?_,
          fun ho => hnone (honly' (honly ho))⟩
        · intro heq
          obtain ⟨y, hy, hyname⟩ := (hsame flag.name).mpr ⟨x, hx, heq⟩
          exact hfresh flag hflag y hy hyname
        · rw [hgiven, hsame]
      · rw [flagsRead_flag hflag]
        refine ⟨?_, ?_, ?_, fun name => ?_, fun ho => ?_⟩
        · rw [List.forall_mem_cons]
          exact ⟨hsig ▸ hmem, hknown⟩
        · rw [List.map_cons, List.nodup_cons]
          refine ⟨fun hdup => ?_, honce⟩
          obtain ⟨f, hf, hname⟩ := List.mem_map.mp hdup
          obtain ⟨y, hy, hyname⟩ := (hadd flag.name).mpr (.inl rfl)
          exact hfresh f hf y hy (hyname.trans hname.symm)
        · rw [List.forall_mem_cons]
          refine ⟨hnew, fun f hf x hx heq => ?_⟩
          obtain ⟨y, hy, hyname⟩ := (hadd f.name).mpr (.inr ⟨x, hx, heq⟩)
          exact hfresh f hf y hy hyname
        · rw [hgiven, hadd, List.map_cons, List.mem_cons, or_assoc,
            or_left_comm]
        · rw [honly ho] at hfree
          cases hfree

-- == the arguments

/-- Behind a read, the run goes on from the state it is pushed to. -/
theorem reads_split {t : Tokenizer} {st : σ} {args final : Args}
    {pre post : List (Args × Str)} {x : Args × Str} (hgood : Good args)
    (h : Reads tryMap t st args (pre ++ x :: post) final) :
    Good x.1 ∧ ∃ t' st' args', x.1.push x.2 = .ok args' ∧
      Reads tryMap t' st' args' post final := by
  generalize hreads : pre ++ x :: post = reads at h
  induction h generalizing pre with
  | done hread => simp at hreads
  | step hread hmap hpush hrest ih =>
      obtain ⟨hgood', -⟩ := good_readToken hgood hread
      cases pre with
      | nil =>
          injection hreads with hx hpost
          subst hx hpost
          exact ⟨hgood', _, _, _, hpush, hrest⟩
      | cons y pre =>
          injection hreads with hy hpre
          exact ih (good_push hgood' hpush).1 hpre

/-- A flag still awaits its argument when the next one is read. -/
theorem reads_awaiting {t : Tokenizer} {st : σ} {args final : Args}
    {reads : List (Args × Str)} {flag : Flag} (hgood : Good args)
    (hawait : args.flagAwaitingArgument = some flag)
    (h : Reads tryMap t st args reads final) (hfinish : final.finish = .ok ()) :
    ∃ next rest, reads = next :: rest ∧
      next.1.flagAwaitingArgument = some flag ∧
      (role next.1 next.2 = .separator ∨
        role next.1 next.2 = .value flag) := by
  cases h with
  | done hread =>
      have hvalid := (good_readToken hgood hread).1.validate
      have hlast : final.flagAwaitingArgument = some flag := by
        rcases readToken_args hread with rfl | rfl
        · exact hawait
        · exact hawait
      unfold finish at hfinish
      rw [hvalid, hlast] at hfinish
      cases hfinish
  | @step t t' st st' args args' args'' final token arg reads hread hmap hpush
      hreads =>
      have hlast : args'.flagAwaitingArgument = some flag := by
        rcases readToken_args hread with rfl | rfl
        · exact hawait
        · exact hawait
      refine ⟨(args', arg), reads, rfl, hlast, ?_⟩
      simp only
      unfold role
      rw [hlast]
      split
      · exact .inl rfl
      · exact .inr rfl

/-- A flag that awaits its argument was the last to be read. -/
theorem reads_awaited {t : Tokenizer} {st : σ} {args final : Args}
    {pre post : List (Args × Str)} {x : Args × Str} {flag : Flag}
    (hgood : Good args)
    (h : Reads tryMap t st args (pre ++ x :: post) final)
    (hawait : x.1.flagAwaitingArgument = some flag) :
    (pre = [] ∧ args.flagAwaitingArgument = some flag) ∨
      ∃ pre' y, pre = pre' ++ [y] ∧ role y.1 y.2 = .flag flag ∧
        flag.completions.isSome = true := by
  generalize hreads : pre ++ x :: post = reads at h
  induction h generalizing pre with
  | done hread => simp at hreads
  | @step t t' st st' args args' args'' final token arg reads hread hmap hpush
      hrest ih =>
      obtain ⟨hgood', -⟩ := good_readToken hgood hread
      cases pre with
      | nil =>
          injection hreads with hx hpost
          subst hx
          refine .inl ⟨rfl, ?_⟩
          rcases readToken_args hread with rfl | rfl
          · exact hawait
          · exact hawait
      | cons y pre =>
          injection hreads with hy hpre
          subst hy
          rcases ih (good_push hgood' hpush).1 hpre with
            ⟨rfl, hnext⟩ | ⟨pre', y', rfl, hrole, hsome⟩
          · refine .inr ⟨[], _, rfl, ?_⟩
            rcases push_cases hgood'.validate hpush with
              ⟨hrole, rfl⟩ | ⟨f, hrole, -, rfl⟩ | ⟨f, hrole, -, -, -, rfl⟩ |
                ⟨hrole, rfl⟩
            · exact absurd (awaiting_flag rfl hnext).1 (by simp)
            · cases hnext
            · obtain ⟨hsame, hsome⟩ := awaiting_flag rfl hnext
              rw [← Option.some.inj hsame] at hsome ⊢
              exact ⟨hrole, hsome⟩
            · cases hnext
          · exact .inr ⟨_ :: pre', y', rfl, hrole, hsome⟩

theorem role_separator {args : Args} {arg : Str} :
    role args arg = .separator ↔
      args.onlyPositionals = false ∧ arg = [dash, dash] := by
  unfold role
  by_cases hsep : ¬ args.onlyPositionals ∧ arg = [dash, dash]
  · rw [if_pos hsep]
    simpa using hsep
  · rw [if_neg hsep]
    refine iff_of_false ?_ (by simpa using hsep)
    split
    · simp
    · split
      · split <;> simp
      · simp

theorem awaiting_push {args args' : Args} {arg : Str} {flag : Flag}
    (hgood : Good args) (hrole : role args arg = .flag flag)
    (hsome : flag.completions.isSome = true) (h : args.push arg = .ok args') :
    args'.flagAwaitingArgument = some flag := by
  rcases push_cases hgood.validate h with
    ⟨hrole', -⟩ | ⟨f, hrole', -⟩ | ⟨f, hrole', -, -, -, rfl⟩ | ⟨hrole', -⟩
  · rw [hrole] at hrole'
    cases hrole'
  · rw [hrole] at hrole'
    cases hrole'
  · rw [hrole] at hrole'
    cases hrole'
    simp [flagAwaitingArgument, Option.filter, hsome]
  · rw [hrole] at hrole'
    cases hrole'

theorem finish_count {args : Args} (hvalid : args.validate = true)
    (h : args.finish = .ok ()) :
    args.signature.positionals.1 ≤ args.positionals.length ∧
      ∀ max, args.signature.positionals.2 = some max →
        args.positionals.length ≤ max := by
  unfold finish at h
  rw [hvalid] at h
  simp only [not_true_eq_false, if_false] at h
  split at h
  · cases h
  · unfold checkPositionalCount at h
    simp only at h
    split at h
    · rename_i hcount
      refine ⟨hcount.1, fun max hmax => ?_⟩
      rw [hmax] at hcount
      simpa using hcount.2
    · cases h

/-- When `parse` accepts with validation, it has ensured what it is to, if
and only if no flag that takes an argument is followed by `--` instead. -/
theorem args_law {line : Str} {signature : Signature} {st : σ} {final : Args}
    (h : Args.parse line signature true tryMap st = .ok (.ok final)) :
    ∃ reads, Reads tryMap (Tokenizer.new line true) st
        (Args.new signature true) reads final ∧
      (Validated signature reads final ↔ ¬ Dangling reads) := by
  unfold Args.parse at h
  obtain ⟨item, hloop, h⟩ := bind_eq_ok.mp h
  cases item with
  | error e => cases h
  | ok args =>
      simp only at h
      cases hfinish : args.finish with
      | error e =>
          rw [hfinish] at h
          cases h
      | ok u =>
          rw [hfinish] at h
          obtain rfl : args = final := Except.ok.inj (Except.ok.inj h)
          obtain ⟨reads, hreads⟩ := reads_of_parseLoop hloop
          have hgood : Good (Args.new signature true) :=
            ⟨rfl, fun flag hflag => by cases hflag⟩
          obtain ⟨⟨hfinal, hsig⟩, hknown, honce, -, hgiven, -⟩ :=
            reads_flags hreads hgood
          have hcount := finish_count hfinal.validate hfinish
          rw [hsig] at hcount
          refine ⟨reads, hreads, fun hvalid => ?_, fun hdangling => ?_⟩
          · rintro ⟨before, arg, hmem, honly, harg, hawait⟩
            obtain ⟨flag, hflag⟩ := Option.isSome_iff_exists.mp hawait
            obtain ⟨pre, post, rfl⟩ := List.append_of_mem hmem
            rcases reads_awaited hgood hreads hflag with
              ⟨-, hstart⟩ | ⟨pre', y, rfl, hrole, hsome⟩
            · cases hstart
            · obtain ⟨next, rest, hpost, hvalue⟩ := hvalid.consumed pre' y.1 y.2
                ((before, arg) :: post) flag (by simp) hrole hsome
              injection hpost with hnext
              subst hnext
              rw [role_separator.mpr ⟨honly, harg⟩] at hvalue
              cases hvalue
          · refine ⟨hcount, hknown, honce, fun name => ?_, ?_, ?_⟩
            · rw [hgiven]
              simp [Args.new]
            · rintro pre before arg post flag rfl hrole hsome
              obtain ⟨hbefore, t', st', after, hpush, hrest⟩ :=
                reads_split hgood hreads
              obtain ⟨next, rest, rfl, hawait, hsep | hvalue⟩ :=
                reads_awaiting (good_push hbefore hpush).1
                  (awaiting_push hbefore hrole hsome hpush) hrest hfinish
              · obtain ⟨honly, harg⟩ := role_separator.mp hsep
                exact absurd ⟨next.1, next.2, by simp, honly, harg,
                  by rw [hawait]; rfl⟩ hdangling
              · exact ⟨next, rest, rfl, hvalue⟩
            · rintro pre before arg post rfl hrole
              obtain ⟨hbefore, t', st', after, hpush, hrest⟩ :=
                reads_split hgood hreads
              refine (reads_flags hrest (good_push hbefore hpush).1).2.2.2.2.2 ?_
              rcases push_cases hbefore.validate hpush with
                ⟨-, rfl⟩ | ⟨f, hrole', -⟩ | ⟨f, hrole', -⟩ | ⟨hrole', -⟩
              · rfl
              · rw [hrole] at hrole'
                cases hrole'
              · rw [hrole] at hrole'
                cases hrole'
              · rw [hrole] at hrole'
                cases hrole'

-- == samples

/-- A flag `--f` that takes an argument. -/
def sampleFlag : Flag := ⟨encode ['f'], none, some []⟩

def sampleSignature : Signature := ⟨(0, none), none, [sampleFlag]⟩

/-- Tokens are taken as they are. -/
def takeContent (st : Unit) (token : Token) : Except Unit (Unit × Str) :=
  .ok (st, token.content)

/-- What is left of a line when it has been read. -/
def sampleArgs (only : Bool) (state : CompletionState) (arg : Str) : Args :=
  ⟨sampleSignature, true, only, state, [], [(encode ['f'], arg)]⟩

/-- The flag is given with its argument. -/
theorem args_law_value :
    ∃ reads, Reads takeContent
        (Tokenizer.new (encode "--f x".toList) true) ()
        (Args.new sampleSignature true) reads
        (sampleArgs false (.flagArgument sampleFlag) (encode ['x'])) ∧
      (Validated sampleSignature reads
          (sampleArgs false (.flagArgument sampleFlag) (encode ['x'])) ↔
        ¬ Dangling reads) :=
  args_law (by rfl)

/-- The flag is followed by a `--`. -/
theorem not_args_law_dangling :
    ¬ ∀ (line : Str) (signature : Signature) (final : Args)
        (reads : List (Args × Str)),
      Args.parse line signature true takeContent () = .ok (.ok final) →
      Reads takeContent (Tokenizer.new line true) ()
        (Args.new signature true) reads final →
      Validated signature reads final := by
  intro h
  have hreads : Reads takeContent (Tokenizer.new (encode "--f --".toList) true)
      () (Args.new sampleSignature true)
      [(Args.new sampleSignature true, encode "--f".toList),
        (sampleArgs false (.flag (some sampleFlag)) [], encode "--".toList)]
      (sampleArgs true (.flag none) []) :=
    .step rfl rfl rfl (.step rfl rfl rfl (.done rfl))
  obtain ⟨next, rest, hnext, hvalue⟩ :=
    (h _ _ _ _ (by rfl) hreads).consumed [] _ _ _ sampleFlag rfl rfl rfl
  injection hnext with hnext
  subst hnext
  exact absurd hvalue (by decide)

end Args

end Zmax.CommandLine
