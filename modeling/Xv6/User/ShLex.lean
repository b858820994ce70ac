import Mathlib.Data.List.TakeWhile
import Mathlib.Data.List.GetD
import Xv6.User.Sh

/-!
# The tokens of a line

`tokens` says what the tokens of a line are: symbols, and words as maximal runs of characters
that are neither whitespace nor symbols. `gettoken` and `peek` are specified in terms of the
tokens that remain at the cursor, `lex line s`; the proofs about the parser see nothing of the
characters below.
-/

namespace Xv6.Sh

open Prog List

inductive Token where
  | word (w : List Char)
  | lt | gt | gtgt | bar | amp | semi | lpar | rpar
  deriving DecidableEq

/-- The token of a symbol; for `>` it is the one of a `>` that no other follows. -/
def symbolToken (c : Char) : Option Token :=
  if c = '<' then some .lt
  else if c = '>' then some .gt
  else if c = '|' then some .bar
  else if c = '&' then some .amp
  else if c = ';' then some .semi
  else if c = '(' then some .lpar
  else if c = ')' then some .rpar
  else none

def tokens : List Char → List Token
  | [] => []
  | c :: r =>
    if strchr whitespace c then tokens r
    else if c = '>' ∧ r.head? = some '>' then .gtgt :: tokens r.tail
    else match symbolToken c with
      | some t => t :: tokens r
      | none => .word (c :: r.takeWhile isWord) :: tokens (r.dropWhile isWord)
termination_by l => l.length
decreasing_by
  · simp
  · simp
  · simp
  · have := length_dropWhile_le isWord r
    simp
    omega

def Token.code : Token → Char
  | word _ => 'a'
  | lt => '<'
  | gt => '>'
  | gtgt => '+'
  | bar => '|'
  | amp => '&'
  | semi => ';'
  | lpar => '('
  | rpar => ')'

/-- Whether the token begins with one of the symbols in `cs`. -/
def Token.startsIn (cs : List Char) : Token → Bool
  | word _ => false
  | gtgt => strchr cs '>'
  | t => strchr cs t.code

variable {r : List Char} {c : Char}

theorem tokens_white (h : strchr whitespace c) : tokens (c :: r) = tokens r := by
  rw [tokens, if_pos h]

theorem tokens_dropWhile (l : List Char) : tokens (l.dropWhile (strchr whitespace)) = tokens l := by
  induction l with
  | nil => rfl
  | cons c r ih =>
    rw [dropWhile_cons]
    split
    case isTrue h => rw [ih, tokens_white h]
    case isFalse => rfl

theorem drop_length_takeWhile (p : Char → Bool) (l : List Char) :
    l.drop (l.takeWhile p).length = l.dropWhile p := by
  induction l with
  | nil => rfl
  | cons c r ih =>
    rw [takeWhile_cons, dropWhile_cons]
    split
    case isTrue => exact ih
    case isFalse => rfl

section Lex

variable (line : List Char)

def lex (s : Nat) : List Token := tokens (line.drop s)

def text (x : Span) : List Char := (line.drop x.1).take (x.2 - x.1)

structure Marks (x : Span) : Prop where
  le : x.1 ≤ x.2
  le_length : x.2 ≤ line.length
  word : ∀ k, x.1 ≤ k → k < x.2 → isWord (chr line k)
  -- the word does not go on
  stop : x.2 = line.length ∨ isWord (chr line x.2) = false

variable {line} {s : Nat}

theorem drop_eq_cons (h : line.drop s = c :: r) :
    s < line.length ∧ chr line s = c ∧ line.drop (s + 1) = r := by
  have hlt : s < line.length := by
    by_contra hge
    rw [drop_eq_nil_of_le (not_lt.1 hge)] at h
    cases h
  rw [drop_eq_getElem_cons hlt] at h
  obtain ⟨hc, hr⟩ := cons_eq_cons.1 h
  exact ⟨hlt, by rw [chr, getD_eq_getElem _ _ hlt, hc], hr⟩

theorem chr_of_drop_nil (h : line.drop s = []) : chr line s = nul := by
  rw [chr, getD_eq_default _ _ (drop_eq_nil_iff.1 h)]

variable {p : Char → Bool}

theorem skip_eq {n : Nat} (hn : n = line.length - s) :
    skip line p n s = s + ((line.drop s).takeWhile p).length := by
  induction n generalizing s with
  | zero =>
    rw [drop_eq_nil_of_le (by omega)]
    rfl
  | succ n ih =>
    cases hd : line.drop s with
    | nil =>
      have := drop_eq_nil_iff.1 hd
      omega
    | cons c r =>
      obtain ⟨hlt, hc, hr⟩ := drop_eq_cons hd
      rw [skip, hc, takeWhile_cons]
      split
      case isTrue =>
        rw [ih (by omega), hr, length_cons]
        omega
      case isFalse => rfl

theorem drop_skip : line.drop (skip line p (line.length - s) s) = (line.drop s).dropWhile p := by
  rw [skip_eq rfl, ← drop_drop]
  exact drop_length_takeWhile p _

theorem skip_le (hs : s ≤ line.length) : skip line p (line.length - s) s ≤ line.length := by
  rw [skip_eq rfl]
  have := (List.takeWhile_prefix p (l := line.drop s)).length_le
  rw [length_drop] at this
  omega

theorem lex_skipWhite : lex line (skipWhite line s) = lex line s := by
  rw [lex, skipWhite, drop_skip, tokens_dropWhile, lex]

theorem skip_passed {n k : Nat} (hs : s ≤ k) (hk : k < skip line p n s) : p (chr line k) := by
  induction n generalizing s with
  | zero =>
    have : k < s := hk
    omega
  | succ n ih =>
    rw [skip] at hk
    split at hk
    case isFalse => omega
    case isTrue h =>
      rcases Nat.eq_or_lt_of_le hs with rfl | hlt
      · exact h
      · exact ih hlt hk

theorem skip_stop {n : Nat} (hn : s + n = line.length) :
    skip line p n s = line.length ∨ p (chr line (skip line p n s)) = false := by
  induction n generalizing s with
  | zero => exact .inl hn
  | succ n ih =>
    rw [skip]
    split
    case isTrue => exact ih (by omega)
    case isFalse h => exact .inr (by simpa using h)

theorem marks_skip (hs : s ≤ line.length) :
    Marks line (s, skip line isWord (line.length - s) s) where
  le := by
    rw [skip_eq rfl]
    exact Nat.le_add_right _ _
  le_length := skip_le hs
  word _ h1 h2 := skip_passed h1 h2
  stop := skip_stop (by omega)

theorem text_skip :
    text line (s, skip line isWord (line.length - s) s) = (line.drop s).takeWhile isWord := by
  rw [text, skip_eq rfl, Nat.add_sub_cancel_left]
  exact (prefix_iff_eq_take.1 (List.takeWhile_prefix _)).symm

/-! ### Symbols -/

theorem symbolToken_none : symbolToken c = none ↔ c ∉ symbols := by
  unfold symbolToken symbols
  split_ifs <;> simp_all

variable {t : Token}

theorem startsIn_symbolToken {cs : List Char} (h : symbolToken c = some t) :
    t.startsIn cs = strchr cs c := by
  unfold symbolToken at h
  split_ifs at h with h1 h2 h3 h4 h5 h6 h7
  all_goals
    cases h
    subst c
    rfl

theorem code_symbolToken (h : symbolToken c = some t) : t.code = c ∧ ∀ w, t ≠ .word w := by
  unfold symbolToken at h
  split_ifs at h with h1 h2 h3 h4 h5 h6 h7
  all_goals
    cases h
    subst c
    exact ⟨rfl, nofun⟩

theorem tokens_word (h : isWord c) :
    tokens (c :: r) = .word ((c :: r).takeWhile isWord) :: tokens ((c :: r).dropWhile isWord) := by
  have hws : strchr whitespace c = false := by simp_all [isWord]
  have hsym : c ∉ symbols := by simp_all [isWord, strchr]
  have hgt : ¬ (c = '>' ∧ r.head? = some '>') := by
    rintro ⟨rfl, -⟩
    exact hsym (by decide)
  rw [tokens, if_neg (by simp [hws]), if_neg hgt, symbolToken_none.2 hsym, takeWhile_cons,
    dropWhile_cons, if_pos h, if_pos h]

theorem tokens_symbol (h : symbolToken c = some t) (hgt : c = '>' → r.head? ≠ some '>') :
    tokens (c :: r) = t :: tokens r := by
  have hws : strchr whitespace c = false := by
    unfold symbolToken at h
    split_ifs at h with h1 h2 h3 h4 h5 h6 h7
    all_goals
      subst c
      rfl
  rw [tokens, if_neg (by simp [hws]), if_neg (fun h => hgt h.1 h.2), h]

theorem tokens_gtgt (r : List Char) : tokens ('>' :: '>' :: r) = .gtgt :: tokens r := by
  rw [tokens, if_neg (by decide), if_pos ⟨rfl, rfl⟩]
  rfl

/-! ### The two functions of the scanner -/

theorem drop_skipWhite (h : line.drop (skipWhite line s) = c :: r) :
    strchr whitespace c = false := by
  rw [skipWhite, drop_skip] at h
  have := List.head?_dropWhile_not (strchr whitespace) (line.drop s)
  rw [h] at this
  simpa using this

theorem ne_nul (hnul : nul ∉ line) (h : line.drop s = c :: r) : c ≠ nul := by
  rintro rfl
  exact hnul (mem_of_mem_drop (h ▸ mem_cons_self))

variable {E : Halt → Prop}

/-- **`peek`**: whether the next token begins with one of the symbols. -/
theorem peek_spec {Q : Bool → Nat → Prop} {cs : List Char} (hcs : cs ⊆ symbols) (hnul : nul ∉ line)
    (hs : s ≤ line.length) (hQ : ∀ s', s' ≤ line.length → lex line s' = lex line s →
      Q ((lex line s).head?.any (Token.startsIn cs)) s') : wp E (peek line cs) Q s := by
  have hpost := hQ (skipWhite line s) (skip_le hs) lex_skipWhite
  have hval : (chr line (skipWhite line s) != nul && strchr cs (chr line (skipWhite line s))) =
      (lex line s).head?.any (Token.startsIn cs) := by
    rw [← lex_skipWhite]
    cases hd : line.drop (skipWhite line s) with
    | nil =>
      rw [chr_of_drop_nil hd, lex, hd, tokens]
      rfl
    | cons c r =>
      have hws := drop_skipWhite hd
      rw [(drop_eq_cons hd).2.1, lex, hd, bne_iff_ne.2 (ne_nul hnul hd), Bool.true_and]
      cases hsym : symbolToken c with
      | none =>
        have hc : c ∉ symbols := symbolToken_none.1 hsym
        rw [tokens_word (by simp_all [isWord, strchr])]
        simpa [Token.startsIn, strchr] using fun h => hc (hcs h)
      | some t =>
        rw [tokens, if_neg (by simp [hws])]
        split
        case isTrue h =>
          rw [h.1]
          rfl
        case isFalse => simp [hsym, startsIn_symbolToken hsym]
  rw [← hval] at hpost
  exact hpost

/-- The scanner's view of the token at a position, and the position after it. -/
structure IsToken (line : List Char) (q : Nat) (t : Token) (ret : Char) (eq : Nat) : Prop where
  code : ret = t.code
  le : eq ≤ line.length
  lex : lex line q = t :: lex line eq
  word : ∀ w, t = .word w → Marks line (q, eq) ∧ text line (q, eq) = w

theorem isToken_symbol (hd : line.drop s = c :: r) (h : symbolToken c = some t)
    (hgt : c = '>' → r.head? ≠ some '>') : IsToken line s t c (s + 1) := by
  obtain ⟨hlt, -, hr⟩ := drop_eq_cons hd
  obtain ⟨hcode, hword⟩ := code_symbolToken h
  refine ⟨hcode.symm, hlt, ?_, fun w hw => absurd hw (hword w)⟩
  rw [lex, hd, tokens_symbol h hgt, lex, hr]

/-- At a character that is not whitespace, `token` finds the next token. -/
theorem token_spec (hd : line.drop s = c :: r) (hne : c ≠ nul) (hws : strchr whitespace c = false) :
    ∃ t, IsToken line s t (token line s).1 (token line s).2 := by
  obtain ⟨hlt, hc, hr⟩ := drop_eq_cons hd
  unfold token
  rw [hc, if_neg hne]
  cases hsym : symbolToken c with
  | none =>
    -- a word
    have hmem : c ∉ symbols := symbolToken_none.1 hsym
    have hword : isWord c := by simp_all [isWord, strchr]
    rw [if_neg (fun h => hmem (by revert h; simp [symbols]; tauto)),
      if_neg (fun h => hmem (by rw [h]; decide))]
    refine ⟨.word (text line (s, skip line isWord (line.length - s) s)), rfl, skip_le hlt.le, ?_, ?_⟩
    · rw [lex, hd, tokens_word hword, text_skip, lex, drop_skip, hd]
    · rintro w hw
      cases hw
      exact ⟨marks_skip hlt.le, rfl⟩
  | some t =>
    by_cases hgt : c = '>'
    · subst hgt
      rw [if_neg (by decide), if_pos rfl]
      split
      case isTrue hnext =>
        -- `>>`
        obtain ⟨r', rfl⟩ : ∃ r', r = '>' :: r' := by
          cases hr' : line.drop (s + 1) with
          | nil =>
            rw [chr_of_drop_nil hr'] at hnext
            cases hnext
          | cons d r' =>
            rw [(drop_eq_cons hr').2.1] at hnext
            exact ⟨r', by rw [← hr, hr', hnext]⟩
        obtain ⟨hlt', -, hr'⟩ := drop_eq_cons hr
        refine ⟨.gtgt, rfl, hlt', ?_, nofun⟩
        rw [lex, hd, tokens_gtgt, lex, ← hr']
      case isFalse hnext =>
        refine ⟨t, isToken_symbol hd hsym fun _ hhead => hnext ?_⟩
        obtain ⟨r', rfl⟩ := List.head?_eq_some_iff.1 hhead
        exact (drop_eq_cons hr).2.1
    · have hmem : c ∈ ['|', '(', ')', ';', '&', '<'] := by
        by_contra hnot
        have : c ∉ symbols := by
          revert hnot
          simp only [symbols, mem_cons, not_mem_nil, or_false]
          tauto
        rw [symbolToken_none.2 this] at hsym
        cases hsym
      rw [if_pos hmem]
      exact ⟨t, isToken_symbol hd hsym fun h => absurd h hgt⟩

/-- **`gettoken`**: the next token is returned and passed over. -/
theorem gettoken_spec {Q : Tok → Nat → Prop} (hnul : nul ∉ line) (hs : s ≤ line.length)
    (hend : ∀ tok s', s' ≤ line.length → lex line s = [] → tok.ret = nul → lex line s' = [] →
      Q tok s')
    (htok : ∀ tok s' t, s' ≤ line.length → lex line s = t :: lex line s' → tok.ret = t.code →
      (∀ w, t = .word w → Marks line (tok.q, tok.eq) ∧ text line (tok.q, tok.eq) = w) → Q tok s') :
    wp E (gettoken line) Q s := by
  show Q ⟨(token line (skipWhite line s)).1, skipWhite line s, (token line (skipWhite line s)).2⟩
    (skipWhite line (token line (skipWhite line s)).2)
  have hj : skipWhite line s ≤ line.length := skip_le hs
  cases hd : line.drop (skipWhite line s) with
  | nil =>
    have htoken : token line (skipWhite line s) = (nul, skipWhite line s) := by
      rw [token, chr_of_drop_nil hd]
      rfl
    have hlex : lex line s = [] := by rw [← lex_skipWhite, lex, hd, tokens]
    rw [htoken]
    exact hend _ _ (skip_le hj) hlex rfl (by rw [lex_skipWhite, lex_skipWhite, hlex])
  | cons c r =>
    obtain ⟨t, ht⟩ := token_spec hd (ne_nul hnul hd) (drop_skipWhite hd)
    have hlex := ht.lex
    rw [lex_skipWhite] at hlex
    exact htok _ _ t (skip_le ht.le) (by rw [lex_skipWhite, hlex]) ht.code ht.word

theorem gettoken_cons {Q : Tok → Nat → Prop} (hnul : nul ∉ line) (hs : s ≤ line.length)
    {ts : List Token} (h : lex line s = t :: ts)
    (hQ : ∀ tok s', s' ≤ line.length → lex line s' = ts → tok.ret = t.code →
      (∀ w, t = .word w → Marks line (tok.q, tok.eq) ∧ text line (tok.q, tok.eq) = w) → Q tok s') :
    wp E (gettoken line) Q s := by
  refine gettoken_spec hnul hs (fun _ _ _ hnil _ _ => ?_) fun tok s' t' hs' hlex hret hword => ?_
  · rw [h] at hnil
    cases hnil
  · rw [h] at hlex
    obtain ⟨rfl, rfl⟩ := cons_eq_cons.1 hlex
    exact hQ tok s' hs' rfl hret hword

end Lex

end Xv6.Sh
