import Xv6.User.ShLex

/-!
# The parser and its grammar

`Derives` is the grammar of the shell's lines over tokens, with the command that each derivation
stands for.
-/

namespace Xv6.Sh

open Prog List

/-! ## The grammar -/

inductive RedirOp where
  | input | output | append

def RedirOp.token : RedirOp → Token
  | input => .lt
  | output => .gt
  | append => .gtgt

def RedirOp.mode : RedirOp → Nat
  | input => O_RDONLY
  | output => O_WRONLY ||| O_CREATE ||| O_TRUNC
  | append => O_WRONLY ||| O_CREATE

def RedirOp.fd : RedirOp → Nat
  | input => 0
  | output => 1
  | append => 1

structure Redir where
  op : RedirOp
  file : List Char

def Redir.tokens (r : Redir) : List Token := [r.op.token, .word r.file]

def Cmd.redirect (c : Cmd (List Char)) (r : Redir) : Cmd (List Char) :=
  .redir c r.file r.op.mode r.op.fd

/-- A word of a simple command with the redirections after it. -/
structure Arg where
  word : List Char
  redirs : List Redir

def Arg.tokens (a : Arg) : List Token := .word a.word :: a.redirs.flatMap Redir.tokens

inductive Nonterm where
  | line | pipe | exec

open Nonterm in
/-- The grammar, with the command each derivation stands for. -/
inductive Derives : Nonterm → List Token → Cmd (List Char) → Prop
  | line {ts : List Token} {c : Cmd (List Char)} (n : Nat) (h : Derives pipe ts c) :
      Derives line (ts ++ List.replicate n .amp) (Cmd.back^[n] c)
  | list {ts us : List Token} {c d : Cmd (List Char)} (n : Nat) (h : Derives pipe ts c)
      (hr : Derives line us d) :
      Derives line (ts ++ List.replicate n .amp ++ .semi :: us) (.list (Cmd.back^[n] c) d)
  | exec {ts : List Token} {c : Cmd (List Char)} (h : Derives exec ts c) : Derives pipe ts c
  | pipe {ts us : List Token} {c d : Cmd (List Char)} (h : Derives exec ts c)
      (hr : Derives pipe us d) : Derives pipe (ts ++ .bar :: us) (.pipe c d)
  | words (rs : List Redir) (args : List Arg) (h : args.length ≤ 9) :
      Derives exec (rs.flatMap Redir.tokens ++ args.flatMap Arg.tokens)
        ((rs ++ args.flatMap Arg.redirs).foldl Cmd.redirect (.exec (args.map Arg.word)))
  | block {ts : List Token} {c : Cmd (List Char)} (rs : List Redir) (h : Derives line ts c) :
      Derives exec (.lpar :: ts ++ .rpar :: rs.flatMap Redir.tokens) (rs.foldl Cmd.redirect c)

/-! ## Commands with pointers -/

def Cmd.strings {α : Type} : Cmd α → List α
  | exec argv => argv
  | redir c file _ _ => file :: c.strings
  | pipe l r => l.strings ++ r.strings
  | list l r => l.strings ++ r.strings
  | back c => c.strings

theorem Cmd.map_addArg {α β : Type} (f : α → β) (x : α) (c : Cmd α) :
    (c.addArg x).map f = (c.map f).addArg (f x) := by
  induction c with
  | exec argv => simp [addArg, map]
  | redir c file mode fd ih => simp [addArg, map, ih]
  | _ => rfl

theorem Cmd.mem_addArg {α : Type} {x y : α} {c : Cmd α} (h : y ∈ (c.addArg x).strings) :
    y = x ∨ y ∈ c.strings := by
  induction c with
  | exec argv =>
    simp only [addArg, strings, mem_append, mem_singleton] at h ⊢
    tauto
  | redir c file mode fd ih =>
    simp only [addArg, strings, mem_cons] at h ⊢
    tauto
  | _ => exact .inr h

theorem Cmd.addArg_redirects (rs : List Redir) (c : Cmd (List Char)) (w : List Char) :
    (rs.foldl redirect c).addArg w = rs.foldl redirect (c.addArg w) := by
  induction rs generalizing c with
  | nil => rfl
  | cons r rs ih => exact ih (c.redirect r)

/-! ## The parser on tokens

What the parsing functions do, as functions of the tokens that remain: `none` when they panic. -/

def Token.redirOp : Token → Option RedirOp
  | .lt => some .input
  | .gt => some .output
  | .gtgt => some .append
  | _ => none

def redirs : List Token → Option (List Redir × List Token)
  | t :: u :: ts =>
    match t.redirOp, u with
    | none, u => some ([], t :: u :: ts)
    | some op, .word w => (redirs ts).map fun r => (⟨op, w⟩ :: r.1, r.2)
    | some _, _ => none
  | [t] => if t.redirOp.isSome then none else some ([], [t])
  | [] => some ([], [])

def Nonterm.follow : Nonterm → List Token
  | .line => [.rpar]
  | .pipe => [.amp, .semi, .rpar]
  | .exec => [.bar, .amp, .semi, .rpar]

def Follows (nt : Nonterm) (rest : List Token) : Prop := ∀ t ∈ rest.head?, t ∈ nt.follow

instance (nt : Nonterm) (rest : List Token) : Decidable (Follows nt rest) :=
  inferInstanceAs (Decidable (∀ t ∈ rest.head?, t ∈ nt.follow))

/-- The words of a simple command, of which there may be `n` more. -/
def words : Nat → List Token → Option (List Arg × List Token)
  | n + 1, .word w :: ts => do
    let (rs, ts) ← redirs ts
    let (as, ts) ← words n ts
    return (⟨w, rs⟩ :: as, ts)
  | _, ts => if Follows .exec ts then some ([], ts) else none

def amps (ts : List Token) : Nat := (ts.takeWhile (· = .amp)).length

/-- The parser as a function of the tokens that remain. It is sound and complete for the grammar
(`phrase_sound`, `phrase_complete`). -/
def phrase : Nat → Nonterm → List Token → Option (Cmd (List Char) × List Token)
  | 0, _, _ => none
  | n + 1, .line, ts => do
    let (c, ts) ← phrase n .pipe ts
    match ts.drop (amps ts) with
    | .semi :: us => do
      let (d, us) ← phrase n .line us
      return (.list (Cmd.back^[amps ts] c) d, us)
    | us => return (Cmd.back^[amps ts] c, us)
  | n + 1, .pipe, ts => do
    let (c, ts) ← phrase n .exec ts
    match ts with
    | .bar :: ts => do
      let (d, ts) ← phrase n .pipe ts
      return (.pipe c d, ts)
    | ts => return (c, ts)
  | n + 1, .exec, .lpar :: ts => do
    let (c, ts) ← phrase n .line ts
    match ts with
    | .rpar :: ts => do
      let (rs, ts) ← redirs ts
      return (rs.foldl Cmd.redirect c, ts)
    | _ => none
  | _ + 1, .exec, ts => do
    let (rs, ts) ← redirs ts
    let (as, ts) ← words 9 ts
    return ((rs ++ as.flatMap Arg.redirs).foldl Cmd.redirect (.exec (as.map Arg.word)), ts)

/-- The fuel a function needs beyond that for the tokens. Each token consumed between two calls of
`parseline` pays for the calls in between. -/
def Nonterm.cost : Nonterm → Nat
  | .line => 4
  | .pipe => 3
  | .exec => 2

/-! ### What it accepts -/

variable {ts us rest : List Token} {c : Cmd (List Char)} {n : Nat}

@[simp] theorem RedirOp.redirOp_token (op : RedirOp) : op.token.redirOp = some op := by
  cases op with
  | _ => rfl

theorem Token.eq_of_redirOp {t : Token} {op : RedirOp} (h : t.redirOp = some op) :
    t = op.token := by
  cases t with
  | lt | gt | gtgt =>
    cases h
    rfl
  | _ => cases h

def NoRedir (ts : List Token) : Prop := ∀ t ∈ ts.head?, t.redirOp = none

theorem redirs_of_noRedir (h : NoRedir ts) : redirs ts = some ([], ts) := by
  fun_cases redirs ts with
  | case1 t u ts => rfl
  | case2 t ts op w hop => cases (h t rfl).symm.trans hop
  | case3 t u ts op hop => cases (h t rfl).symm.trans hop
  | case4 t hop => rw [h t rfl] at hop; cases hop
  | _ => rfl

theorem redirs_token (op : RedirOp) (w : List Char) (ts : List Token) :
    redirs (op.token :: .word w :: ts) = (redirs ts).map fun r => (⟨op, w⟩ :: r.1, r.2) := by
  simp [redirs]

theorem redirs_missing (op : RedirOp) (h : ∀ w us, ts ≠ .word w :: us) :
    redirs (op.token :: ts) = none := by
  rcases ts with _ | ⟨t, ts⟩
  · simp [redirs]
  · cases t with
    | word w => exact absurd rfl (h w ts)
    | _ => simp [redirs]

theorem redirs_complete (rs : List Redir) (h : NoRedir rest) :
    redirs (rs.flatMap Redir.tokens ++ rest) = some (rs, rest) := by
  induction rs with
  | nil => exact redirs_of_noRedir h
  | cons r rs ih =>
    show redirs (r.op.token :: .word r.file :: (rs.flatMap Redir.tokens ++ rest)) = _
    rw [redirs_token, ih]
    rfl

theorem redirs_sound {rs : List Redir} (h : redirs ts = some (rs, rest)) :
    ts = rs.flatMap Redir.tokens ++ rest := by
  fun_induction redirs ts generalizing rs rest with
  | case1 | case5 | case6 =>
    cases h
    rfl
  | case2 t ts op w hop ih =>
    obtain ⟨r, hr, hcons⟩ := Option.map_eq_some_iff.1 h
    cases hcons
    rw [ih hr, t.eq_of_redirOp hop]
    rfl
  | _ => cases h


variable {nt : Nonterm}

theorem Follows.noRedir (h : Follows nt rest) : NoRedir rest := by
  intro t ht
  have hmem := h t ht
  cases nt with
  | _ =>
    simp only [Nonterm.follow, mem_cons, not_mem_nil, or_false] at hmem
    rcases hmem with rfl | rfl | rfl | rfl <;> rfl

theorem noRedir_args (as : List Arg) (h : NoRedir rest) :
    NoRedir (as.flatMap Arg.tokens ++ rest) := by
  cases as with
  | nil => exact h
  | cons a as =>
    rintro t ⟨⟩
    rfl

theorem words_complete (as : List Arg) (hn : as.length ≤ n) (h : Follows .exec rest) :
    words n (as.flatMap Arg.tokens ++ rest) = some (as, rest) := by
  induction as generalizing n with
  | nil =>
    rw [flatMap_nil, nil_append, words, if_pos h]
    rintro n w ts rfl rfl
    exact absurd (h _ rfl) (by simp [Nonterm.follow])
  | cons a as ih =>
    obtain ⟨n, rfl⟩ := Nat.exists_eq_add_one_of_ne_zero (Nat.ne_zero_of_lt hn)
    have htail := redirs_complete a.redirs (noRedir_args as h.noRedir)
    rw [flatMap_cons, Arg.tokens, append_assoc, cons_append, words, htail]
    simp [ih (Nat.le_of_succ_le_succ hn)]

theorem words_none (h : ¬ Follows .exec ts) (hn : ∀ w us, ts = .word w :: us → n = 0) :
    words n ts = none := by
  rw [words, if_neg h]
  rintro m w us rfl rfl
  cases hn w us rfl

theorem words_sound {as : List Arg} (h : words n ts = some (as, rest)) :
    ts = as.flatMap Arg.tokens ++ rest ∧ as.length ≤ n := by
  fun_induction words n ts generalizing as with
  | case1 n w ts ih =>
    simp only [Option.bind_eq_bind, Option.bind_eq_some_iff] at h
    obtain ⟨⟨rs, us⟩, hrs, ⟨as', vs⟩, has, hcons⟩ := h
    cases hcons
    obtain ⟨hus, hlen⟩ := ih us has
    refine ⟨?_, Nat.succ_le_succ hlen⟩
    rw [redirs_sound hrs, hus]
    simp [Arg.tokens]
  | case2 =>
    cases h
    exact ⟨rfl, Nat.zero_le _⟩
  | case3 => cases h

theorem amps_replicate (h : ∀ t ∈ rest.head?, t ≠ .amp) :
    amps (List.replicate n .amp ++ rest) = n := by
  cases rest with
  | nil => simp [amps]
  | cons t rest => simp [amps, h t rfl]

theorem replicate_amps (ts : List Token) :
    List.replicate (amps ts) .amp ++ ts.drop (amps ts) = ts := by
  induction ts with
  | nil => rfl
  | cons t ts ih =>
    by_cases ht : t = .amp
    · subst ht
      exact congrArg (Token.amp :: ·) ih
    · simp [amps, ht]

theorem follows_amps (k : Nat) (h : Follows .pipe rest) :
    Follows .pipe (List.replicate k .amp ++ rest) := by
  cases k with
  | zero => exact h
  | succ k =>
    rintro t ⟨⟩
    decide

theorem Follows.ne_cons {t : Token} (h : Follows nt rest) (ht : t ∉ nt.follow) (us : List Token) :
    rest ≠ t :: us := by
  rintro rfl
  exact ht (h t rfl)

theorem Nonterm.exists_fuel {k : Nat} (h : k + nt.cost ≤ n) : ∃ m, n = m + 1 :=
  Nat.exists_eq_add_one_of_ne_zero fun h0 => by
    cases nt <;> simp [cost, h0] at h

/-- **Completeness.** A phrase that the grammar derives is parsed to the command derived. -/
theorem phrase_complete (h : Derives nt ts c) (hrest : Follows nt rest)
    (hn : 4 * (ts ++ rest).length + nt.cost ≤ n) : phrase n nt (ts ++ rest) = some (c, rest) := by
  induction h generalizing n rest with
  | line k h ih =>
    obtain ⟨n, rfl⟩ := Nonterm.exists_fuel hn
    have hpipe : Follows .pipe rest := fun t ht => by
      have := hrest t ht
      simp_all [Nonterm.follow]
    have hp := ih (n := n) (follows_amps k hpipe) (by simp [Nonterm.cost] at hn ⊢; omega)
    have hamp : amps (List.replicate k .amp ++ rest) = k := amps_replicate fun t ht hamp =>
      absurd (hrest t ht) (by rw [hamp]; decide)
    simp [phrase, hp, hamp]
    split
    case h_1 => exact absurd rfl (hrest.ne_cons (by decide) _)
    case h_2 => rfl
  | @list ts us c d k h hr ih ihr =>
    obtain ⟨n, rfl⟩ := Nonterm.exists_fuel hn
    have hsemi : Follows .pipe (.semi :: (us ++ rest)) := by
      rintro t ⟨⟩
      decide
    have hp := ih (n := n) (follows_amps k hsemi)
      (by simp [Nonterm.cost] at hn ⊢; omega)
    have hl := ihr (n := n) hrest (by simp [Nonterm.cost] at hn ⊢; omega)
    have hamp : amps (List.replicate k .amp ++ .semi :: (us ++ rest)) = k :=
      amps_replicate (by rintro t ⟨⟩; decide)
    simp [phrase, hp, hamp, hl]
  | exec h ih =>
    obtain ⟨n, rfl⟩ := Nonterm.exists_fuel hn
    have he := ih (n := n) (fun t ht => mem_cons_of_mem _ (hrest t ht))
      (by simp [Nonterm.cost] at hn ⊢; omega)
    simp [phrase, he]
    split
    case h_1 => exact absurd rfl (hrest.ne_cons (by decide) _)
    case h_2 => rfl
  | @pipe ts us c d h hr ih ihr =>
    obtain ⟨n, rfl⟩ := Nonterm.exists_fuel hn
    have hbar : Follows .exec (.bar :: (us ++ rest)) := by
      rintro t ⟨⟩
      decide
    have he := ih (n := n) hbar (by simp [Nonterm.cost] at hn ⊢; omega)
    have hp := ihr (n := n) hrest (by simp [Nonterm.cost] at hn ⊢; omega)
    simp [phrase, he, hp]
  | words rs args hlen =>
    obtain ⟨n, rfl⟩ := Nonterm.exists_fuel hn
    have hnext : NoRedir (args.flatMap Arg.tokens ++ rest) := noRedir_args args hrest.noRedir
    have hrs := redirs_complete rs hnext
    rw [append_assoc, phrase, hrs]
    · simp [words_complete args hlen hrest]
    · intro us heq
      rcases rs with _ | ⟨⟨op, w⟩, rs⟩
      · rcases args with _ | ⟨a, args⟩
        · exact hrest.ne_cons (by decide) us heq
        · cases heq
      · cases op <;> cases heq
  | block rs h ih =>
    obtain ⟨n, rfl⟩ := Nonterm.exists_fuel hn
    have hrpar : Follows .line (.rpar :: (rs.flatMap Redir.tokens ++ rest)) := by
      rintro t ⟨⟩
      decide
    have hl := ih (n := n) hrpar (by simp [Nonterm.cost] at hn ⊢; omega)
    simp [phrase, hl, redirs_complete rs hrest.noRedir]

theorem phrase_sound (h : phrase n nt ts = some (c, rest)) :
    ∃ us, ts = us ++ rest ∧ Derives nt us c := by
  fun_induction phrase n nt ts generalizing c rest with
  | case1 => cases h
  | case2 n ts ih ihr =>
    simp only [Option.bind_eq_bind, Option.bind_eq_some_iff] at h
    obtain ⟨⟨d, us⟩, hd, h⟩ := h
    obtain ⟨vs, rfl, hder⟩ := ih hd
    have hamps := replicate_amps us
    dsimp only at h
    split at h
    case h_1 heq =>
      simp only [Option.bind_eq_some_iff] at h
      obtain ⟨⟨e, ws⟩, he, hpair⟩ := h
      cases hpair
      obtain ⟨xs, rfl, hder'⟩ := ihr _ he
      rw [heq] at hamps
      exact ⟨_, by simpa using hamps.symm, .list (amps us) hder hder'⟩
    case h_2 =>
      cases h
      exact ⟨_, by rw [append_assoc, hamps], .line (amps us) hder⟩
  | case3 n ts ih ihr =>
    simp only [Option.bind_eq_bind, Option.bind_eq_some_iff] at h
    obtain ⟨⟨d, us⟩, hd, h⟩ := h
    obtain ⟨vs, rfl, hder⟩ := ih hd
    dsimp only at h
    split at h
    case h_1 =>
      simp only [Option.bind_eq_some_iff] at h
      obtain ⟨⟨e, ws⟩, he, hpair⟩ := h
      cases hpair
      obtain ⟨xs, rfl, hder'⟩ := ihr _ he
      exact ⟨_, by simp, .pipe hder hder'⟩
    case h_2 =>
      cases h
      exact ⟨_, rfl, .exec hder⟩
  | case4 n ts ih =>
    simp only [Option.bind_eq_bind, Option.bind_eq_some_iff] at h
    obtain ⟨⟨d, us⟩, hd, h⟩ := h
    obtain ⟨vs, rfl, hder⟩ := ih hd
    dsimp only at h
    split at h
    case h_1 =>
      simp only [Option.bind_eq_some_iff] at h
      obtain ⟨⟨rs, ws⟩, hrs, hpair⟩ := h
      cases hpair
      exact ⟨_, by rw [redirs_sound hrs]; simp, .block rs hder⟩
    case h_2 => cases h
  | case5 n ts hne =>
    simp only [Option.bind_eq_bind, Option.bind_eq_some_iff] at h
    obtain ⟨⟨rs, us⟩, hrs, ⟨as, ws⟩, (has : words 9 us = _), hpair⟩ := h
    cases hpair
    obtain ⟨rfl, hlen⟩ := words_sound has
    exact ⟨_, by rw [redirs_sound hrs, append_assoc], .words rs as hlen⟩

/-! ## The parser and the parser on tokens -/

section Parser

variable {line : List Char} {s fuel : Nat}

def Marked (line : List Char) (c : Cmd Span) : Prop := ∀ x ∈ c.strings, Marks line x

theorem redircmd_token (op : RedirOp) (c : Cmd Span) (file : Span) :
    redircmd op.token.code c file = .redir c file op.mode op.fd := by
  cases op with
  | _ => rfl

theorem code_ne_nul (t : Token) : t.code ≠ nul := by
  cases t with
  | word w => exact (by decide : 'a' ≠ nul)
  | _ => decide

theorem word_of_code {t : Token} (h : t.code = 'a') : ∃ w, t = .word w := by
  cases t with
  | word w => exact ⟨w, rfl⟩
  | _ => cases h

/-- The symbols that are a token by themselves: what a `peek` for one of them sees. -/
theorem peek_single {u : Token} (hu : u ∈ [.amp, .semi, .bar, .lpar, .rpar]) :
    ts.head?.any (Token.startsIn [u.code]) = true ↔ ∃ us, ts = u :: us := by
  cases ts with
  | nil => simp
  | cons t ts =>
    have ht : t.startsIn [u.code] = true ↔ t = u := by
      simp only [mem_cons, not_mem_nil, or_false] at hu
      rcases hu with rfl | rfl | rfl | rfl | rfl <;>
        cases t <;> simp [Token.startsIn, strchr, Token.code]
    simp [ht]

theorem startsIn_redir {t : Token} : t.startsIn ['<', '>'] ↔ ∃ op : RedirOp, t = op.token := by
  constructor
  · intro h
    cases t with
    | lt => exact ⟨.input, rfl⟩
    | gt => exact ⟨.output, rfl⟩
    | gtgt => exact ⟨.append, rfl⟩
    | _ => cases h
  · rintro ⟨op, rfl⟩
    cases op with
    | _ => rfl

theorem peek_redir :
    ts.head?.any (Token.startsIn ['<', '>']) = true ↔
      ∃ op : RedirOp, ∃ us, ts = op.token :: us := by
  cases ts with
  | nil => simp
  | cons t ts => simp [startsIn_redir]

theorem noRedir_of_peek (h : ¬ ts.head?.any (Token.startsIn ['<', '>']) = true) : NoRedir ts := by
  intro t ht
  by_contra hop
  obtain ⟨op, hop⟩ := Option.ne_none_iff_exists'.1 hop
  obtain ⟨us, rfl⟩ := List.head?_eq_some_iff.1 ht
  exact h (peek_redir.2 ⟨op, us, by rw [t.eq_of_redirOp hop]⟩)

theorem amps_of_peek (h : ¬ ts.head?.any (Token.startsIn ['&']) = true) : amps ts = 0 := by
  cases ts with
  | nil => rfl
  | cons t ts =>
    have ht : t ≠ .amp := fun ht => h ((peek_single (u := .amp) (by simp)).2 ⟨ts, by rw [ht]⟩)
    simp [amps, ht]

theorem peek_exec {t : Token} :
    (t :: ts).head?.any (Token.startsIn ['|', ')', '&', ';']) = true ↔ Follows .exec (t :: ts) := by
  cases t with
  | _ => simp [Follows, Nonterm.follow, Token.startsIn, strchr, Token.code]

def Panics {α : Type} (o : Option α) (e : Halt) : Prop := e ≠ .fuel ∧ o = none

theorem parseredirs_spec (hnul : nul ∉ line) (hs : s ≤ line.length) {cmd : Cmd Span}
    (hmark : Marked line cmd) (hfuel : (lex line s).length < fuel) :
    wp (Panics (redirs (lex line s))) (parseredirs line fuel cmd) (fun c s' => s' ≤ line.length ∧
      Marked line c ∧ ∃ rs, redirs (lex line s) = some (rs, lex line s') ∧
        c.map (text line) = rs.foldl Cmd.redirect (cmd.map (text line))) s := by
  induction fuel generalizing s cmd with
  | zero => omega
  | succ fuel ih =>
    rw [parseredirs, wp_bind]
    refine peek_spec (by decide) hnul hs fun s1 hs1 hlex1 => ?_
    rw [wp_ite]
    refine ⟨fun hpeek => ?_, fun hpeek => ?_⟩
    · obtain ⟨op, ts, hts⟩ := peek_redir.1 hpeek
      rw [wp_bind]
      refine gettoken_cons hnul hs1 (hlex1.trans hts) fun tok s2 hs2 hlex2 hret _ => ?_
      rw [wp_bind, hts, ← hlex2]
      refine gettoken_spec hnul hs2 (fun file s3 _ hnil hret' _ => ?_)
        fun file s3 t hs3 hlex3 hret' hw => ?_
      · rw [wp_ite, hnil]
        exact ⟨fun _ => ⟨nofun, redirs_missing op nofun⟩,
          fun h => absurd (hret'.symm.trans (not_not.1 h)) (by decide)⟩
      rw [wp_ite, hlex3]
      refine ⟨fun h => ⟨nofun, redirs_missing op ?_⟩, fun h => ?_⟩
      · rintro w us ⟨⟩
        exact h hret'
      obtain ⟨w, rfl⟩ := word_of_code (hret'.symm.trans (not_not.1 h))
      obtain ⟨hmarks, htext⟩ := hw w rfl
      rw [hret, redircmd_token, redirs_token]
      have hmark' : Marked line (.redir cmd (file.q, file.eq) op.mode op.fd) := by
        intro x hx
        rcases mem_cons.1 hx with rfl | hx
        · exact hmarks
        · exact hmark x hx
      have hlen : (lex line s3).length < fuel := by
        rw [hts, ← hlex2, hlex3] at hfuel
        simp only [length_cons] at hfuel
        omega
      refine (ih hs3 hmark' hlen).mono (fun c s' ⟨hs', hm, rs, hrs, hc⟩ => ?_)
        fun e ⟨he, hnone⟩ => ⟨he, by rw [hnone]; rfl⟩
      refine ⟨hs', hm, ⟨op, w⟩ :: rs, by rw [hrs]; rfl, ?_⟩
      rw [hc, Cmd.map, htext]
      rfl
    · exact ⟨hs1, hmark, [], by rw [redirs_of_noRedir (noRedir_of_peek hpeek), hlex1], rfl⟩

theorem parsebacks_spec {E : Halt → Prop} (hnul : nul ∉ line) (hs : s ≤ line.length)
    {cmd : Cmd Span} (hmark : Marked line cmd) (hfuel : (lex line s).length < fuel) :
    wp E (parsebacks line fuel cmd) (fun c s' => s' ≤ line.length ∧ Marked line c ∧
      lex line s' = (lex line s).drop (amps (lex line s)) ∧
        c.map (text line) = Cmd.back^[amps (lex line s)] (cmd.map (text line))) s := by
  induction fuel generalizing s cmd with
  | zero => omega
  | succ fuel ih =>
    rw [parsebacks, wp_bind]
    refine peek_spec (by decide) hnul hs fun s1 hs1 hlex1 => ?_
    rw [wp_ite]
    refine ⟨fun hpeek => ?_, fun hpeek => ?_⟩
    · obtain ⟨ts, hts⟩ := (peek_single (u := .amp) (by simp)).1 hpeek
      rw [wp_bind]
      refine gettoken_cons hnul hs1 (hlex1.trans hts) fun tok s2 hs2 hlex2 _ _ => ?_
      rw [hts, ← hlex2]
      rw [hts, ← hlex2] at hfuel
      exact ih hs2 (show Marked line (.back cmd) from hmark) (Nat.lt_of_succ_lt_succ hfuel)
    · rw [amps_of_peek hpeek]
      exact ⟨hs1, hmark, hlex1, rfl⟩

theorem parseargs_spec (hnul : nul ∉ line) (hs : s ≤ line.length) {ret : Cmd Span}
    (ws : List (List Char)) {rs : List Redir} (hmark : Marked line ret)
    (hret : ret.map (text line) = rs.foldl Cmd.redirect (.exec ws)) (hn : ws.length + n = 9)
    (hfuel : (lex line s).length < fuel) :
    wp (Panics (words n (lex line s))) (parseargs line fuel ws.length ret) (fun c s' =>
      s' ≤ line.length ∧ Marked line c ∧ ∃ as, words n (lex line s) = some (as, lex line s') ∧
        c.map (text line) = (rs ++ as.flatMap Arg.redirs).foldl Cmd.redirect
          (.exec (ws ++ as.map Arg.word))) s := by
  induction fuel generalizing s ret ws rs n with
  | zero => omega
  | succ fuel ih =>
    have hdone : ∀ s', s' ≤ line.length → lex line s' = lex line s → Follows .exec (lex line s) →
        s' ≤ line.length ∧ Marked line ret ∧ ∃ as, words n (lex line s) = some (as, lex line s') ∧
        ret.map (text line) = (rs ++ as.flatMap Arg.redirs).foldl Cmd.redirect
          (.exec (ws ++ as.map Arg.word)) := fun s' hs' hlex hf => by
      have hw := words_complete [] (Nat.zero_le n) hf
      exact ⟨hs', hmark, [], by rw [hlex]; exact hw, by simpa using hret⟩
    rw [parseargs, wp_bind]
    refine peek_spec (by decide) hnul hs fun s1 hs1 hlex1 => ?_
    rw [wp_ite]
    refine ⟨fun hpeek => hdone s1 hs1 hlex1 ?_, fun hpeek => ?_⟩
    · cases hl : lex line s with
      | nil => nofun
      | cons t ts => exact peek_exec.1 (hl ▸ hpeek)
    rw [wp_bind]
    refine gettoken_spec hnul hs1 (fun tok s2 hs2 hnil hcode hlex2 => ?_)
      fun tok s2 t hs2 hlex2 hcode hw => ?_
    · -- the end of the line
      rw [wp_ite]
      rw [hlex1] at hnil
      exact ⟨fun _ => hdone s2 hs2 (hlex2.trans hnil.symm) (by rw [hnil]; nofun),
        fun h => absurd hcode h⟩
    rw [hlex1] at hlex2
    rw [wp_ite]
    refine ⟨fun h => absurd (hcode.symm.trans h) (code_ne_nul t), fun _ => ?_⟩
    rw [wp_ite]
    refine ⟨fun hword => ⟨nofun, ?_⟩, fun hword => ?_⟩
    · rw [hlex2] at hpeek ⊢
      refine words_none (fun hf => hpeek (peek_exec.2 hf)) ?_
      rintro w us ⟨⟩
      exact absurd hcode hword
    obtain ⟨w, rfl⟩ := word_of_code (hcode.symm.trans (not_not.1 hword))
    rw [wp_ite, show MAXARGS = 10 from rfl, hlex2]
    refine ⟨fun hargc => ⟨nofun, ?_⟩, fun hargc => ?_⟩
    · exact words_none (fun hf => absurd (hf _ rfl) (by simp [Nonterm.follow]))
        fun _ _ _ => by omega
    obtain ⟨n, rfl⟩ := Nat.exists_eq_add_one_of_ne_zero (n := n) (by omega)
    obtain ⟨hmarks, htext⟩ := hw w rfl
    have hmark' : Marked line (ret.addArg (tok.q, tok.eq)) := fun x hx => by
      rcases Cmd.mem_addArg hx with rfl | hx
      · exact hmarks
      · exact hmark x hx
    have hlen : (lex line s2).length < fuel := by
      rw [hlex2] at hfuel
      exact Nat.lt_of_succ_lt_succ hfuel
    rw [wp_bind, words]
    refine (parseredirs_spec hnul hs2 hmark' hlen).mono (fun c s3 ⟨hs3, hm, rs', hrs', hc⟩ => ?_)
      fun e ⟨he, hnone⟩ => ⟨he, by rw [hnone]; rfl⟩
    have hlen3 : (lex line s3).length < fuel := by
      rw [redirs_sound hrs', length_append] at hlen
      omega
    have hc' : c.map (text line) = (rs ++ rs').foldl Cmd.redirect (.exec (ws ++ [w])) := by
      rw [hc, Cmd.map_addArg, hret, htext, Cmd.addArg_redirects, foldl_append]
      rfl
    have hws' : (ws ++ [w]).length = ws.length + 1 := length_append
    rw [← hws', hrs']
    refine (ih (n := n) hs3 _ hm hc' (by omega) hlen3).mono (fun d s' ⟨hs', hmd, as, has, hd⟩ => ?_)
      fun e ⟨he, hnone⟩ => ⟨he, by simp [hnone]⟩
    refine ⟨hs', hmd, ⟨w, rs'⟩ :: as, by simp [has], ?_⟩
    rw [hd]
    simp

def Nonterm.parse (line : List Char) : Nonterm → Nat → Act Nat Halt (Cmd Span)
  | .line => parseline line
  | .pipe => parsepipe line
  | .exec => parseexec line

/-- A parsing function does what the one on tokens does. -/
def Agrees (line : List Char) (fuel n : Nat) (nt : Nonterm) (s : Nat) : Prop :=
  wp (Panics (phrase n nt (lex line s))) (nt.parse line fuel) (fun c s' => s' ≤ line.length ∧
    Marked line c ∧ phrase n nt (lex line s) = some (c.map (text line), lex line s')) s

def AgreeAll (line : List Char) (fuel : Nat) : Prop :=
  ∀ (nt : Nonterm) (s n : Nat), s ≤ line.length → 4 * (lex line s).length + nt.cost ≤ fuel →
    4 * (lex line s).length + nt.cost ≤ n → Agrees line fuel n nt s

theorem Marked.append {l r c : Cmd Span} (hl : Marked line l) (hr : Marked line r)
    (h : c.strings = l.strings ++ r.strings) : Marked line c := fun x hx => by
  rw [h] at hx
  rcases mem_append.1 hx with hx | hx
  · exact hl x hx
  · exact hr x hx

theorem parseline_spec (hnul : nul ∉ line) (ih : AgreeAll line fuel) (hs : s ≤ line.length)
    (hfuel : 4 * (lex line s).length + 4 ≤ fuel + 1) (hn : 4 * (lex line s).length + 4 ≤ n + 1) :
    Agrees line (fuel + 1) (n + 1) .line s := by
  rw [Agrees, Nonterm.parse, parseline, wp_bind, phrase]
  refine (ih .pipe s n hs (Nat.le_of_succ_le_succ hfuel) (Nat.le_of_succ_le_succ hn)).mono
    (fun c s1 ⟨hs1, hm1, hc⟩ => ?_) fun e ⟨he, hnone⟩ => ⟨he, by rw [hnone]; rfl⟩
  obtain ⟨ts, hts, -⟩ := phrase_sound hc
  rw [hts, length_append] at hfuel hn
  rw [wp_bind, hc]
  refine (parsebacks_spec hnul hs1 hm1 (by omega)).call fun d s2 ⟨hs2, hm2, hlex2, hd⟩ => ?_
  rw [wp_bind]
  refine peek_spec (by decide) hnul hs2 fun s3 hs3 hlex3 => ?_
  simp only [Option.bind_eq_bind, Option.bind_some, ← hlex2, ← hd]
  rw [wp_ite]
  refine ⟨fun hpeek => ?_, fun hpeek => ⟨hs3, hm2, ?_⟩⟩
  · obtain ⟨us, hus⟩ := (peek_single (u := .semi) (by simp)).1 hpeek
    rw [wp_bind, hus]
    refine gettoken_cons hnul hs3 (hlex3.trans hus) fun _ s4 hs4 hlex4 _ _ => ?_
    have hlen4 : (lex line s4).length < (lex line s1).length := by
      rw [hlex4]
      have := congrArg List.length (hlex2.symm.trans hus)
      rw [length_drop, length_cons] at this
      omega
    rw [wp_bind, ← hlex4]
    exact (ih .line s4 n hs4 (by simp only [Nonterm.cost]; omega)
      (by simp only [Nonterm.cost]; omega)).mono
      (fun r s' ⟨hs', hmr, hr⟩ => ⟨hs', hm2.append hmr rfl, by simp [hr, Cmd.map]⟩)
      fun e ⟨he, hnone⟩ => ⟨he, by simp [hnone]⟩
  · split
    case h_1 us hus => exact absurd ((peek_single (u := .semi) (by simp)).2 ⟨us, hus⟩) hpeek
    case h_2 => rw [hlex3]; rfl

theorem parsepipe_spec (hnul : nul ∉ line) (ih : AgreeAll line fuel) (hs : s ≤ line.length)
    (hfuel : 4 * (lex line s).length + 3 ≤ fuel + 1) (hn : 4 * (lex line s).length + 3 ≤ n + 1) :
    Agrees line (fuel + 1) (n + 1) .pipe s := by
  rw [Agrees, Nonterm.parse, parsepipe, wp_bind, phrase]
  refine (ih .exec s n hs (Nat.le_of_succ_le_succ hfuel) (Nat.le_of_succ_le_succ hn)).mono
    (fun c s1 ⟨hs1, hm1, hc⟩ => ?_) fun e ⟨he, hnone⟩ => ⟨he, by rw [hnone]; rfl⟩
  obtain ⟨ts, hts, -⟩ := phrase_sound hc
  rw [hts, length_append] at hfuel hn
  rw [wp_bind, hc]
  refine peek_spec (by decide) hnul hs1 fun s2 hs2 hlex2 => ?_
  simp only [Option.bind_eq_bind, Option.bind_some]
  rw [wp_ite]
  refine ⟨fun hpeek => ?_, fun hpeek => ⟨hs2, hm1, ?_⟩⟩
  · obtain ⟨us, hus⟩ := (peek_single (u := .bar) (by simp)).1 hpeek
    rw [wp_bind, hus]
    rw [hus, length_cons] at hfuel hn
    refine gettoken_cons hnul hs2 (hlex2.trans hus) fun _ s3 hs3 hlex3 _ _ => ?_
    rw [wp_bind, ← hlex3]
    rw [← hlex3] at hfuel hn
    exact (ih .pipe s3 n hs3 (by simp only [Nonterm.cost]; omega)
      (by simp only [Nonterm.cost]; omega)).mono
      (fun r s' ⟨hs', hmr, hr⟩ => ⟨hs', hm1.append hmr rfl, by simp [hr, Cmd.map]⟩)
      fun e ⟨he, hnone⟩ => ⟨he, by simp [hnone]⟩
  · split
    case h_1 us hus => exact absurd ((peek_single (u := .bar) (by simp)).2 ⟨us, hus⟩) hpeek
    case h_2 => rw [hlex2]; rfl

theorem parseexec_words (hnul : nul ∉ line) (hs : s ≤ line.length)
    (hfuel : 4 * (lex line s).length + 2 ≤ fuel + 1)
    (hpeek : ¬ (lex line s).head?.any (Token.startsIn ['(']) = true) :
    Agrees line (fuel + 1) (n + 1) .exec s := by
  rw [Agrees, Nonterm.parse, parseexec, wp_bind, phrase]
  · refine peek_spec (by decide) hnul hs fun s1 hs1 hlex1 => ?_
    rw [wp_ite]
    refine ⟨fun h => absurd h hpeek, fun _ => ?_⟩
    rw [wp_bind, ← hlex1]
    rw [← hlex1] at hfuel
    refine (parseredirs_spec hnul hs1 (show Marked line (.exec []) from nofun) (by omega)).mono
      (fun c s2 ⟨hs2, hm2, rs, hrs, hc⟩ => ?_) fun e ⟨he, hnone⟩ => ⟨he, by rw [hnone]; rfl⟩
    rw [redirs_sound hrs, length_append] at hfuel
    rw [hrs]
    exact (parseargs_spec (n := 9) hnul hs2 [] hm2 hc rfl (by omega)).mono
      (fun d s' ⟨hs', hm', as, has, hd⟩ => ⟨hs', hm', by simp [has, hd]⟩)
      fun e ⟨he, hnone⟩ => ⟨he, by simp [hnone]⟩
  · exact fun us hus => hpeek ((peek_single (u := .lpar) (by simp)).2 ⟨us, hus⟩)

theorem parseexec_block (hnul : nul ∉ line) (ih : AgreeAll line fuel) (hs : s ≤ line.length)
    (hfuel : 4 * (lex line s).length + 2 ≤ fuel + 2) (hn : 4 * (lex line s).length + 2 ≤ n + 1)
    (hpeek : (lex line s).head?.any (Token.startsIn ['(']) = true) :
    Agrees line (fuel + 2) (n + 1) .exec s := by
  obtain ⟨us, hus⟩ := (peek_single (u := .lpar) (by simp)).1 hpeek
  rw [Agrees, Nonterm.parse, parseexec, wp_bind, hus, phrase]
  refine peek_spec (by decide) hnul hs fun s1 hs1 hlex1 => ?_
  rw [wp_ite]
  refine ⟨fun _ => ?_, fun h => absurd hpeek h⟩
  rw [parseblock, wp_bind]
  refine peek_spec (by decide) hnul hs1 fun s2 hs2 hlex2 => ?_
  rw [wp_ite]
  refine ⟨fun _ => ?_, fun h => absurd (hlex1.symm ▸ hpeek) h⟩
  rw [wp_bind]
  refine gettoken_cons hnul hs2 (hlex2.trans (hlex1.trans hus)) fun _ s3 hs3 hlex3 _ _ => ?_
  rw [hus, ← hlex3, length_cons] at hfuel hn
  rw [wp_bind, ← hlex3]
  refine (ih .line s3 n hs3 (by simp only [Nonterm.cost]; omega)
    (by simp only [Nonterm.cost]; omega)).mono (fun c s4 ⟨hs4, hm4, hc⟩ => ?_)
    fun e ⟨he, hnone⟩ => ⟨he, by rw [hnone]; rfl⟩
  obtain ⟨ts, hts, -⟩ := phrase_sound hc
  rw [hts, length_append] at hfuel
  rw [wp_bind, hc]
  refine peek_spec (by decide) hnul hs4 fun s5 hs5 hlex5 => ?_
  simp only [Option.bind_eq_bind, Option.bind_some]
  rw [wp_ite]
  refine ⟨fun hpeek => ?_, fun hpeek => ⟨nofun, ?_⟩⟩
  · obtain ⟨vs, hvs⟩ := (peek_single (u := .rpar) (by simp)).1 hpeek
    rw [wp_bind, hvs]
    refine gettoken_cons hnul hs5 (hlex5.trans hvs) fun _ s6 hs6 hlex6 _ _ => ?_
    rw [hvs, ← hlex6, length_cons] at hfuel
    rw [← hlex6]
    exact (parseredirs_spec hnul hs6 hm4 (by omega)).mono
      (fun d s' ⟨hs', hm', rs, hrs, hd⟩ => ⟨hs', hm', by simp [hrs, hd]⟩)
      fun e ⟨he, hnone⟩ => ⟨he, by simp [hnone]⟩
  · split
    case h_1 vs hvs => exact absurd ((peek_single (u := .rpar) (by simp)).2 ⟨vs, hvs⟩) hpeek
    case h_2 => rfl

/-- With fuel in proportion to the number of tokens that remain, the parsing functions on the line
do what `phrase` does on its tokens. -/
theorem agreeAll (hnul : nul ∉ line) : AgreeAll line fuel := by
  induction fuel using Nat.strong_induction_on with
  | _ fuel ih =>
    intro nt s n hs hfuel hn
    obtain ⟨fuel, rfl⟩ := Nonterm.exists_fuel hfuel
    obtain ⟨n, rfl⟩ := Nonterm.exists_fuel hn
    cases nt with
    | line => exact parseline_spec hnul (ih fuel (Nat.lt_succ_self _)) hs hfuel hn
    | pipe => exact parsepipe_spec hnul (ih fuel (Nat.lt_succ_self _)) hs hfuel hn
    | exec =>
      by_cases hpeek : (lex line s).head?.any (Token.startsIn ['(']) = true
      · obtain ⟨fuel, rfl⟩ := Nat.exists_eq_add_one_of_ne_zero (n := fuel) (by
          rintro rfl
          simp [Nonterm.cost] at hfuel)
        exact parseexec_block hnul (ih fuel (by omega)) hs hfuel hn hpeek
      · exact parseexec_words hnul hs hfuel hpeek

end Parser

end Xv6.Sh
