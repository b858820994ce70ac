import Xv6.User.ShParse

/-!
# What the shell's parser accepts

`parsecmd` accepts a line exactly when the grammar derives its tokens, and returns the command
derived: the strings of the command are the words its pointers mark, and no NUL is written into a
word. A command printed with parentheses parses back to itself.
-/

namespace Xv6.Sh

open Prog List

section Parser

variable {line : List Char} {s fuel : Nat} {c : Cmd (List Char)}

/-! ## The whole line -/

theorem skipWhite_eq_length (hnul : nul ∉ line) (hs : s ≤ line.length) :
    skipWhite line s = line.length ↔ lex line s = [] := by
  constructor
  · intro h
    rw [← lex_skipWhite, h, lex, drop_length, tokens]
  · intro h
    cases hd : line.drop (skipWhite line s) with
    | nil =>
      have := drop_eq_nil_iff.1 hd
      have : skipWhite line s ≤ line.length := skip_le hs
      omega
    | cons c r =>
      obtain ⟨t, ht⟩ := token_spec hd (ne_nul hnul hd) (drop_skipWhite hd)
      have := ht.lex
      rw [lex_skipWhite, h] at this
      cases this

theorem length_tokens (l : List Char) : (tokens l).length ≤ l.length := by
  fun_induction tokens l with
  | case1 => exact le_rfl
  | case2 c r _ ih => exact ih.trans (Nat.le_succ _)
  | case3 c r _ _ ih =>
    rw [length_tail] at ih
    simp only [length_cons]
    omega
  | case4 c r _ _ t _ ih =>
    simp only [length_cons]
    omega
  | case5 c r _ _ _ ih =>
    have := length_dropWhile_le isWord r
    simp only [length_cons]
    omega

theorem lex_zero : lex line 0 = tokens line := by rw [lex, drop_zero]

/-- The command that `parse` returns is the one that the tokens of the line derive. -/
theorem parse_spec (hnul : nul ∉ line) (hfuel : 4 * line.length + 4 ≤ fuel) :
    wp (fun e => e ≠ .fuel ∧ ∀ c, ¬ Derives .line (tokens line) c) (parse line fuel)
      (fun c _ => Marked line c ∧ ∀ d, Derives .line (tokens line) d ↔ d = c.map (text line)) 0 := by
  have hlen := length_tokens line
  have hbound : 4 * (lex line 0).length + Nonterm.line.cost ≤ fuel := by
    rw [lex_zero]
    simp only [Nonterm.cost]
    omega
  have hderives : ∀ c, Derives .line (tokens line) c →
      phrase fuel .line (lex line 0) = some (c, []) := fun c hc => by
    have hend : Follows .line [] := by decide
    rw [lex_zero] at hbound ⊢
    simpa using phrase_complete hc hend (by simpa using hbound)
  rw [parse, wp_bind]
  refine (agreeAll hnul .line 0 fuel (Nat.zero_le _) hbound hbound).mono
    (fun c s1 hpost => ?_) fun e herr => ⟨herr.1, fun c hc => ?_⟩
  · obtain ⟨hs1, hm, hc⟩ := hpost
    show wp _ (if skipWhite line s1 ≠ line.length then throw (Halt.panic "syntax") else pure c) _ _
    have heq : ∀ d, Derives .line (tokens line) d → d = c.map (text line) ∧ [] = lex line s1 :=
      fun d hd => Prod.ext_iff.1 (Option.some.inj ((hderives d hd).symm.trans hc))
    rw [wp_ite]
    refine ⟨fun h => ⟨by simp, fun d hd => h ?_⟩, fun h => ⟨hm, fun d => ⟨fun hd => (heq d hd).1, ?_⟩⟩⟩
    · exact (skipWhite_eq_length hnul hs1).2 (heq d hd).2.symm
    · rintro rfl
      obtain ⟨ts, hts, hder⟩ := phrase_sound hc
      rw [(skipWhite_eq_length hnul hs1).1 (not_not.1 h), append_nil, lex_zero] at hts
      rwa [hts]
  · have hnone := herr.2
    rw [hderives c hc] at hnone
    cases hnone

/-! ## The strings of the command -/

theorem getElem?_set_nul {buf buf' : List Char} {ends : List Nat} {k i : Nat}
    (hlen : buf'.length = buf.length)
    (h : buf'[k]? = if k ∈ ends ∧ k < buf.length then some nul else buf[k]?) :
    (buf'.set i nul)[k]? =
      if k ∈ i :: ends ∧ k < buf.length then some nul else buf[k]? := by
  rw [List.getElem?_set, h, hlen]
  by_cases hk : k < buf.length
  · by_cases hi : i = k
    · simp [hi, hk]
    · simp [hi, hk, Ne.symm hi]
  · by_cases hi : i = k
    · simp [hi, hk]
    · simp [hi, hk]

theorem length_nulterminate (c : Cmd Span) (buf : List Char) :
    (nulterminate c buf).length = buf.length := by
  induction c generalizing buf with
  | exec argv =>
    show (argv.foldl _ buf).length = _
    induction argv generalizing buf with
    | nil => rfl
    | cons x xs ih => rw [foldl_cons, ih, length_set]
  | redir c file mode fd ih => rw [nulterminate, length_set, ih]
  | pipe _ _ ihl ihr | list _ _ ihl ihr => exact (ihr _).trans (ihl buf)
  | back c ih => exact ih buf

/-- `nulterminate` writes a NUL at the end of every string and nothing else. -/
theorem getElem?_nulterminate (c : Cmd Span) (buf : List Char) (k : Nat) :
    (nulterminate c buf)[k]? =
      if k ∈ c.strings.map Prod.snd ∧ k < buf.length then some nul else buf[k]? := by
  induction c generalizing buf with
  | exec argv =>
    show (argv.foldl (fun buf x => buf.set x.2 nul) buf)[k]? =
      if k ∈ argv.map Prod.snd ∧ _ then _ else _
    -- from the end, where the last write is made
    induction argv using List.reverseRecOn with
    | nil => simp
    | append_singleton xs x ih =>
      rw [foldl_concat]
      refine (getElem?_set_nul (length_nulterminate (.exec xs) buf) ih).trans ?_
      refine if_congr ?_ rfl rfl
      simp only [mem_cons, map_append, mem_append, map_cons, map_nil,
        not_mem_nil, or_false]
      tauto
  | redir c file mode fd ih => exact getElem?_set_nul (length_nulterminate c buf) (ih buf)
  | pipe _ _ ihl ihr | list _ _ ihl ihr =>
    rw [nulterminate, ihr, length_nulterminate, ihl]
    simp only [Cmd.strings, map_append, mem_append]
    split_ifs <;> first | rfl | tauto
  | back c ih => exact ih buf

theorem cstring_eq {buf : List Char} {x : Span} (hx : x.1 ≤ x.2) (hle : x.2 ≤ line.length)
    (htext : ∀ k, x.1 ≤ k → k < x.2 → buf[k]? = some (chr line k) ∧ chr line k ≠ nul)
    (hend : buf[x.2]? = some nul) : cstring buf x.1 = text line x := by
  have htake : (buf.drop x.1).take (x.2 - x.1) = text line x := by
    apply ext_getElem?
    intro k
    rw [text, List.getElem?_take, List.getElem?_take]
    split
    case isFalse => rfl
    case isTrue hk =>
      have hlt : x.1 + k < line.length := by omega
      rw [List.getElem?_drop, List.getElem?_drop, (htext _ (by omega) (by omega)).1, chr,
        getD_eq_getElem _ _ hlt, List.getElem?_eq_getElem hlt]
  have hdrop : ∃ r, (buf.drop x.1).drop (x.2 - x.1) = nul :: r := by
    obtain ⟨hlt, hget⟩ := List.getElem?_eq_some_iff.1 hend
    rw [drop_drop, Nat.add_sub_cancel' hx, drop_eq_getElem_cons hlt, hget]
    exact ⟨_, rfl⟩
  obtain ⟨r, hr⟩ := hdrop
  have hne : ∀ c ∈ text line x, (decide (c ≠ nul)) = true := by
    intro c hc
    obtain ⟨k, hk⟩ := mem_iff_getElem?.1 hc
    rw [← htake, List.getElem?_take] at hk
    split at hk
    case isFalse => cases hk
    case isTrue hlt =>
      obtain ⟨hget, hne⟩ := htext (x.1 + k) (by omega) (by omega)
      rw [List.getElem?_drop, hget] at hk
      cases hk
      exact decide_eq_true hne
  rw [cstring, ← take_append_drop (x.2 - x.1) (buf.drop x.1), htake, hr,
    takeWhile_append_of_pos hne]
  simp

theorem Cmd.map_congr {α β : Type} {f g : α → β} {c : Cmd α} (h : ∀ x ∈ c.strings, f x = g x) :
    c.map f = c.map g := by
  induction c with
  | exec argv => exact congrArg Cmd.exec (map_congr_left h)
  | redir c file mode fd ih =>
    rw [map, map, ih fun x hx => h x (mem_cons_of_mem _ hx), h file mem_cons_self]
  | pipe _ _ ihl ihr | list _ _ ihl ihr =>
    rw [map, map, ihl fun x hx => h x (mem_append_left _ hx),
      ihr fun x hx => h x (mem_append_right _ hx)]
  | back c ih => rw [map, map, ih h]

/-- No NUL is written into a word: each is written where a word has just ended. -/
theorem Marks.end_notMem {x y : Span} (hx : Marks line x) (hy : Marks line y) :
    ¬ (y.1 ≤ x.2 ∧ x.2 < y.2) := by
  rintro ⟨h1, h2⟩
  rcases hx.stop with h | h
  · have := hy.le_length
    omega
  · rw [hy.word x.2 h1 h2] at h
    cases h

/-- After `nulterminate`, the strings of a command are the words its pointers mark. -/
theorem cstring_nulterminate (hnul : nul ∉ line) {cmd : Cmd Span} (hm : Marked line cmd) {x : Span}
    (hx : x ∈ cmd.strings) : cstring (nulterminate cmd (line ++ [nul])) x.1 = text line x := by
  have hmx := hm x hx
  apply cstring_eq hmx.le hmx.le_length
  · intro k hk1 hk2
    have hlt : k < line.length := hk2.trans_le hmx.le_length
    have hget : (line ++ [nul])[k]? = some (chr line k) := by
      rw [List.getElem?_append_left hlt, chr, getD_eq_getElem _ _ hlt,
        List.getElem?_eq_getElem hlt]
    have hnot : k ∉ cmd.strings.map Prod.snd := by
      intro hmem
      obtain ⟨y, hy, rfl⟩ := mem_map.1 hmem
      exact (hm y hy).end_notMem hmx ⟨hk1, hk2⟩
    rw [getElem?_nulterminate, if_neg (fun h => hnot h.1)]
    refine ⟨hget, fun h => hnul ?_⟩
    rw [← h, chr, getD_eq_getElem _ _ hlt]
    exact getElem_mem hlt
  · rw [getElem?_nulterminate, if_pos]
    refine ⟨mem_map_of_mem hx, ?_⟩
    have := hmx.le_length
    rw [length_append, length_singleton]
    omega

/-- **The strings of a parsed line.** When `nulterminate` is done, every string that a node of the
tree points to is the text that was between its two pointers. The NULs are all that it writes, each
on the line or just after it, and none between the pointers of a string. -/
theorem nulterminate_strings {cmd : Cmd Span} (hnul : nul ∉ line)
    (hfuel : 4 * line.length + 4 ≤ fuel) (hparse : (parse line fuel).run 0 = .ok (cmd, s)) :
    (∀ x ∈ cmd.strings, cstring (nulterminate cmd (line ++ [nul])) x.1 = text line x) ∧
      (∀ x ∈ cmd.strings, x.2 ≤ line.length ∧ ∀ y ∈ cmd.strings, ¬ (y.1 ≤ x.2 ∧ x.2 < y.2)) ∧
      ∀ k, (nulterminate cmd (line ++ [nul]))[k]? =
        if k ∈ cmd.strings.map Prod.snd then some nul else (line ++ [nul])[k]? := by
  have hm : Marked line cmd := ((wp_of_run hparse).1 (parse_spec hnul hfuel)).1
  refine ⟨fun x hx => cstring_nulterminate hnul hm hx, fun x hx => ⟨(hm x hx).le_length, ?_⟩, ?_⟩
  · exact fun y hy => (hm x hx).end_notMem (hm y hy)
  · intro k
    rw [getElem?_nulterminate, length_append]
    refine if_congr (and_iff_left_of_imp fun hk => ?_) rfl rfl
    obtain ⟨x, hx, rfl⟩ := mem_map.1 hk
    exact Nat.lt_succ_of_le (hm x hx).le_length

/-- On `a>b` the NUL after `a` takes the place of the `>`. -/
theorem nulterminate_strings_adjacent :
    (parse "a>b".toList 16).run 0 = .ok (.redir (.exec [(0, 1)]) (2, 3) 0x601 1, 3) ∧
      ∀ x ∈ [(2, 3), (0, 1)], cstring ['a', nul, 'b', nul] x.1 = text "a>b".toList x := by
  have hparse : (parse "a>b".toList 16).run 0 = .ok (.redir (.exec [(0, 1)]) (2, 3) 0x601 1, 3) := by
    decide
  exact ⟨hparse, (nulterminate_strings (by decide) (by decide) hparse).1⟩

/-- `parsecmd` returns the command derived, or panics when there is none. -/
theorem parsecmd_spec (hnul : nul ∉ line) (hfuel : 4 * line.length + 4 ≤ fuel) :
    (∃ c, parsecmd fuel line = .ok c ∧ ∀ d, Derives .line (tokens line) d ↔ d = c) ∨
      ∃ msg, parsecmd fuel line = .error (.panic msg) ∧ ∀ c, ¬ Derives .line (tokens line) c := by
  have h := parse_spec hnul hfuel
  unfold wp at h
  cases hrun : (parse line fuel).run 0 with
  | error e =>
    rw [hrun] at h
    cases e with
    | fuel => exact absurd rfl h.1
    | panic msg => exact .inr ⟨msg, by rw [parsecmd, hrun]; rfl, h.2⟩
  | ok r =>
    rw [hrun] at h
    refine .inl ⟨r.1.map (text line), ?_, h.2⟩
    rw [parsecmd, hrun, ← Cmd.map_congr (fun x hx => cstring_nulterminate hnul h.1 hx)]
    rfl

end Parser

/-! ## Printing -/

def redirText (mode : Nat) : List Char :=
  if mode = O_RDONLY then ['<']
  else if mode = O_WRONLY ||| O_CREATE ||| O_TRUNC then ['>']
  else ['>', '>']

def paren (l : List Char) : List Char := '(' :: l ++ [')']

/-- A command as a line, with parentheses around its subcommands. -/
def Cmd.print : Cmd (List Char) → List Char
  | exec argv => argv.flatMap fun w => w ++ [' ']
  | redir c file mode _ => paren c.print ++ redirText mode ++ file
  | pipe l r => paren l.print ++ '|' :: paren r.print
  | list l r => paren l.print ++ ';' :: paren r.print
  | back c => paren c.print ++ ['&']

/-- The text of a word: a non-empty C string without whitespace and symbols. -/
structure IsText (w : List Char) : Prop where
  ne_nil : w ≠ []
  word : ∀ c ∈ w, isWord c
  nul : nul ∉ w

/-- The command trees of the shell: at most 9 words in an EXEC node, and redirections of the three
kinds there are. -/
def Cmd.Valid : Cmd (List Char) → Prop
  | exec argv => argv.length ≤ 9 ∧ ∀ w ∈ argv, IsText w
  | redir c file mode fd => c.Valid ∧ IsText file ∧ ∃ op : RedirOp, mode = op.mode ∧ fd = op.fd
  | pipe l r => l.Valid ∧ r.Valid
  | list l r => l.Valid ∧ r.Valid
  | back c => c.Valid

def Ends (rest : List Char) : Prop := ∀ c ∈ rest.head?, isWord c = false

theorem tokens_text {w rest : List Char} (hw : IsText w) (hrest : Ends rest) :
    tokens (w ++ rest) = .word w :: tokens rest := by
  obtain ⟨c, w', rfl⟩ := exists_cons_of_ne_nil hw.ne_nil
  have htake : rest.takeWhile isWord = [] := by
    cases rest with
    | nil => rfl
    | cons d rest => rw [takeWhile_cons, hrest d rfl]; rfl
  have hdrop : rest.dropWhile isWord = rest := by
    cases rest with
    | nil => rfl
    | cons d rest => rw [dropWhile_cons, hrest d rfl]; rfl
  rw [cons_append, tokens_word (hw.word c mem_cons_self), ← cons_append,
    takeWhile_append_of_pos hw.word, dropWhile_append_of_pos hw.word, htake, hdrop,
    append_nil]

theorem tokens_paren {l rest : List Char} {ts : List Token}
    (h : ∀ rest, Ends rest → tokens (l ++ rest) = ts ++ tokens rest) :
    tokens (paren l ++ rest) = .lpar :: ts ++ .rpar :: tokens rest := by
  rw [paren, cons_append, cons_append, append_assoc,
    tokens_symbol (t := .lpar) rfl (fun h => absurd h (by decide)),
    h _ (fun c hc => by cases hc; rfl), singleton_append,
    tokens_symbol (t := .rpar) rfl (fun h => absurd h (by decide))]
  rfl

variable {c : Cmd (List Char)}

theorem Derives.paren {ts : List Token} (h : Derives .line ts c) :
    Derives .exec (.lpar :: ts ++ [.rpar]) c := Derives.block [] h

theorem tokens_redir (op : RedirOp) {file rest : List Char} (hfile : IsText file)
    (hrest : Ends rest) :
    tokens (redirText op.mode ++ (file ++ rest)) = op.token :: .word file :: tokens rest := by
  have hhead : (file ++ rest).head? ≠ some '>' := by
    obtain ⟨c, w', rfl⟩ := exists_cons_of_ne_nil hfile.ne_nil
    intro h
    cases h
    exact absurd (hfile.word '>' mem_cons_self) (by decide)
  rw [← tokens_text hfile hrest]
  cases op with
  | input => exact tokens_symbol rfl fun h => absurd h (by decide)
  | output => exact tokens_symbol rfl fun _ => hhead
  | append => exact tokens_gtgt _

theorem tokens_words {argv : List (List Char)} (h : ∀ w ∈ argv, IsText w) (rest : List Char) :
    tokens (argv.flatMap (fun w => w ++ [' ']) ++ rest) = argv.map .word ++ tokens rest := by
  induction argv with
  | nil => rfl
  | cons w argv ih =>
    rw [flatMap_cons, append_assoc, append_assoc, singleton_append,
      tokens_text (h w mem_cons_self) (fun c hc => by cases hc; rfl), tokens_white (by decide),
      ih fun v hv => h v (mem_cons_of_mem _ hv)]
    rfl

theorem derives_words {argv : List (List Char)} (h : argv.length ≤ 9) :
    Derives .line (argv.map .word) (.exec argv) := by
  have htokens : (argv.map fun w => Arg.mk w []).flatMap Arg.tokens = argv.map .word := by
    rw [flatMap_map]
    exact flatMap_pure_eq_map Token.word argv
  have hredirs : (argv.map fun w => Arg.mk w []).flatMap Arg.redirs = [] := by
    simp
  have hd := Derives.line 0 (.exec (.words [] (argv.map fun w => ⟨w, []⟩) (by simpa using h)))
  rw [htokens, hredirs] at hd
  simpa [Function.comp_def] using hd

theorem Cmd.Valid.derives (h : c.Valid) :
    ∃ ts, Derives .line ts c ∧ ∀ rest, Ends rest → tokens (c.print ++ rest) = ts ++ tokens rest := by
  induction c with
  | exec argv => exact ⟨argv.map .word, derives_words h.1, fun rest _ => tokens_words h.2 rest⟩
  | redir c file mode fd ih =>
    obtain ⟨hc, hfile, op, rfl, rfl⟩ := h
    obtain ⟨ts, hd, htokens⟩ := ih hc
    refine ⟨_, .line 0 (.exec (.block [⟨op, file⟩] hd)), fun rest hrest => ?_⟩
    rw [print, append_assoc, append_assoc, tokens_paren htokens,
      tokens_redir op hfile hrest]
    simp [Redir.tokens]
  | pipe l r ihl ihr =>
    obtain ⟨ts, hl, htl⟩ := ihl h.1
    obtain ⟨us, hr, htr⟩ := ihr h.2
    refine ⟨_, .line 0 (.pipe hl.paren (.exec hr.paren)), fun rest _ => ?_⟩
    rw [print, append_assoc, cons_append, tokens_paren htl,
      tokens_symbol (t := .bar) rfl (fun h => absurd h (by decide)), tokens_paren htr]
    simp
  | list l r ihl ihr =>
    obtain ⟨ts, hl, htl⟩ := ihl h.1
    obtain ⟨us, hr, htr⟩ := ihr h.2
    refine ⟨_, .list 0 (.exec hl.paren) (.line 0 (.exec hr.paren)), fun rest _ => ?_⟩
    rw [print, append_assoc, cons_append, tokens_paren htl,
      tokens_symbol (t := .semi) rfl (fun h => absurd h (by decide)), tokens_paren htr]
    simp
  | back c ih =>
    obtain ⟨ts, hc, htc⟩ := ih h
    refine ⟨_, .line 1 (.exec hc.paren), fun rest _ => ?_⟩
    rw [print, append_assoc, tokens_paren htc, singleton_append,
      tokens_symbol (t := .amp) rfl (fun h => absurd h (by decide))]
    simp

theorem Cmd.Valid.nul_print (h : c.Valid) : nul ∉ c.print := by
  have hparen : ∀ {l : List Char}, nul ∉ l → nul ∉ paren l := fun hl => by
    simpa [paren] using ⟨by decide, hl, by decide⟩
  induction c with
  | exec argv =>
    intro hmem
    obtain ⟨w, hw, hin⟩ := mem_flatMap.1 hmem
    rcases mem_append.1 hin with hin | hin
    · exact (h.2 w hw).nul hin
    · exact absurd hin (by decide)
  | redir c file mode fd ih =>
    obtain ⟨hc, hfile, op, rfl, rfl⟩ := h
    have hop : nul ∉ redirText op.mode := by
      cases op with
      | _ => decide
    simpa [print] using ⟨hparen (ih hc), hop, hfile.nul⟩
  | pipe _ _ ihl ihr | list _ _ ihl ihr =>
    simpa [print] using ⟨hparen (ihl h.1), by decide, hparen (ihr h.2)⟩
  | back c ih => simpa [print] using ⟨hparen (ih h), by decide⟩

/-- **The shell's parser.** On every line it returns a command or panics, and it returns a command
exactly when the tokens of the line derive it; so a command printed with parentheses around its
subcommands is parsed back. -/
theorem parsecmd_iff_derives :
    (∀ (line : List Char) (fuel : Nat), nul ∉ line → 4 * line.length + 4 ≤ fuel →
      ((∃ c, parsecmd fuel line = .ok c) ∨ ∃ msg, parsecmd fuel line = .error (.panic msg)) ∧
      ∀ c, parsecmd fuel line = .ok c ↔ Derives .line (tokens line) c) ∧
    ∀ (c : Cmd (List Char)) (fuel : Nat), c.Valid → 4 * c.print.length + 4 ≤ fuel →
      parsecmd fuel c.print = .ok c := by
  have hparse : ∀ (line : List Char) (fuel : Nat), nul ∉ line → 4 * line.length + 4 ≤ fuel →
      ((∃ c, parsecmd fuel line = .ok c) ∨ ∃ msg, parsecmd fuel line = .error (.panic msg)) ∧
      ∀ c, parsecmd fuel line = .ok c ↔ Derives .line (tokens line) c := by
    intro line fuel hnul hfuel
    rcases parsecmd_spec hnul hfuel with ⟨c, hc, hder⟩ | ⟨msg, hmsg, hnot⟩
    · exact ⟨.inl ⟨c, hc⟩, fun d => by rw [hder, hc, Except.ok.injEq, eq_comm]⟩
    · exact ⟨.inr ⟨msg, hmsg⟩, fun d => by simp [hmsg, hnot d]⟩
  refine ⟨hparse, fun c fuel hc hfuel => ?_⟩
  obtain ⟨ts, hd, htokens⟩ := hc.derives
  have hprint := htokens [] nofun
  rw [append_nil, tokens, append_nil] at hprint
  exact ((hparse _ fuel hc.nul_print hfuel).2 c).2 (hprint ▸ hd)

def lsWc : Cmd (List Char) :=
  .list (.back (.redir (.exec [['l', 's']]) ['f'] 0x601 1)) (.pipe (.exec [['w', 'c']]) (.exec [['x']]))

theorem parsecmd_iff_derives_lsWc :
    Derives .line (tokens "ls >f&;(wc|x)".toList) lsWc ∧
      parsecmd 256 lsWc.print = .ok lsWc := by
  obtain ⟨hparse, hprint⟩ := parsecmd_iff_derives
  refine ⟨((hparse _ 60 (by decide) (by decide)).2 lsWc).1 (by decide), hprint lsWc 256 ?_ (by decide)⟩
  have htext : ∀ w ∈ [['l', 's'], ['f'], ['w', 'c'], ['x']], IsText w := by
    intro w hw
    simp only [mem_cons, not_mem_nil, or_false] at hw
    rcases hw with rfl | rfl | rfl | rfl
    all_goals exact ⟨nofun, forall_iff_forall_mem.1 (by decide), by decide⟩
  refine ⟨⟨⟨by decide, fun w hw => htext w (by simp_all)⟩, htext _ (by simp), .output, rfl, rfl⟩,
    ⟨by decide, fun w hw => htext w (by simp_all)⟩, ⟨by decide, fun w hw => htext w (by simp_all)⟩⟩

end Xv6.Sh
