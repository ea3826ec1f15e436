import WiseKernel.Idl.Expression
import WiseKernel.Lib.Regex

/-!
# The lexer

The rules of the lexer in their order, with the actions behind them.  A comment of several lines
is not matched by its rule: the action reads on behind the `/*`, and at the end of the file the
generated function goes on to answer zero.
-/

namespace WiseKernel.Idl

open WiseKernel.Lib

/-! ## Rules -/

inductive Keyword
  | tokBool | tokI8 | tokI16 | tokI32 | tokI64 | tokU8 | tokU16 | tokU32 | tokU64
  | tokFloat | tokDouble | tokTimestamp | tokString | tokUstring | tokVec | tokTopic
  | tokEnum | tokStruct | tokMessage | tokMsg | tokNamespace | tokInclude
  | tokOpt | tokEnableCipher | tokEnableChecksum | tokEnableSequence
  | tokTx | tokTxBind | tokTxResult | tokTxSingle | tokTxMulti | tokTxQuery | tokOut | tokTxReturn
  deriving DecidableEq

def Keyword.text : Keyword → List Char
  | .tokBool => ['b', 'o', 'o', 'l']
  | .tokI8 => ['i', '8']
  | .tokI16 => ['i', '1', '6']
  | .tokI32 => ['i', '3', '2']
  | .tokI64 => ['i', '6', '4']
  | .tokU8 => ['u', '8']
  | .tokU16 => ['u', '1', '6']
  | .tokU32 => ['u', '3', '2']
  | .tokU64 => ['u', '6', '4']
  | .tokFloat => ['f', 'l', 'o', 'a', 't']
  | .tokDouble => ['d', 'o', 'u', 'b', 'l', 'e']
  | .tokTimestamp => ['t', 'i', 'm', 'e', 's', 't', 'a', 'm', 'p']
  | .tokString => ['s', 't', 'r', 'i', 'n', 'g']
  | .tokUstring => ['u', 's', 't', 'r', 'i', 'n', 'g']
  | .tokVec => ['v', 'e', 'c']
  | .tokTopic => ['t', 'o', 'p', 'i', 'c']
  | .tokEnum => ['e', 'n', 'u', 'm']
  | .tokStruct => ['s', 't', 'r', 'u', 'c', 't']
  | .tokMessage => ['m', 'e', 's', 's', 'a', 'g', 'e']
  | .tokMsg => ['m', 's', 'g']
  | .tokNamespace => ['n', 'a', 'm', 'e', 's', 'p', 'a', 'c', 'e']
  | .tokInclude => ['i', 'n', 'c', 'l', 'u', 'd', 'e']
  | .tokOpt => ['o', 'p', 't']
  | .tokEnableCipher => ['e', 'n', 'a', 'b', 'l', 'e', '_', 'c', 'i', 'p', 'h', 'e', 'r']
  | .tokEnableChecksum =>
      ['e', 'n', 'a', 'b', 'l', 'e', '_', 'c', 'h', 'e', 'c', 'k', 's', 'u', 'm']
  | .tokEnableSequence =>
      ['e', 'n', 'a', 'b', 'l', 'e', '_', 's', 'e', 'q', 'u', 'e', 'n', 'c', 'e']
  | .tokTx => ['t', 'x']
  | .tokTxBind => ['t', 'x', '_', 'b', 'i', 'n', 'd']
  | .tokTxResult => ['t', 'x', '_', 'r', 'e', 's', 'u', 'l', 't']
  | .tokTxSingle => ['t', 'x', '_', 's', 'i', 'n', 'g', 'l', 'e']
  | .tokTxMulti => ['t', 'x', '_', 'm', 'u', 'l', 't', 'i']
  | .tokTxQuery => ['t', 'x', '_', 'q', 'u', 'e', 'r', 'y']
  | .tokOut => ['t', 'x', '_', 'o', 'u', 't']
  | .tokTxReturn => ['t', 'x', '_', 'r', 'e', 't', 'u', 'r', 'n']

inductive Rule
  | whitespace
  | comment
  | namespaceSeparator
  | symbol
  | keyword (k : Keyword)
  | plus
  | minus
  | multicmBegin
  | intconstant
  | hexconstant
  | identifier
  | macroLine
  | dubconstant
  | queryString
  | unexpected
  deriving DecidableEq

namespace Rule

/-- In the order of the file. -/
def all : List Rule :=
  [.whitespace, .comment, .namespaceSeparator, .symbol,
    .keyword .tokBool, .keyword .tokI8, .keyword .tokI16, .keyword .tokI32, .keyword .tokI64,
    .keyword .tokU8, .keyword .tokU16, .keyword .tokU32, .keyword .tokU64,
    .keyword .tokFloat, .keyword .tokDouble, .keyword .tokTimestamp, .keyword .tokString,
    .keyword .tokUstring, .keyword .tokVec, .keyword .tokTopic, .keyword .tokEnum,
    .keyword .tokStruct, .keyword .tokMessage, .keyword .tokMsg, .plus, .minus,
    .keyword .tokNamespace, .keyword .tokInclude, .keyword .tokOpt, .keyword .tokEnableCipher,
    .keyword .tokEnableChecksum, .keyword .tokEnableSequence, .keyword .tokTx,
    .keyword .tokTxBind, .keyword .tokTxResult, .keyword .tokTxSingle, .keyword .tokTxMulti,
    .keyword .tokTxQuery, .keyword .tokOut, .keyword .tokTxReturn,
    .multicmBegin, .intconstant, .hexconstant, .identifier, .macroLine, .dubconstant,
    .queryString, .unexpected]

def isBlank (c : Char) : Bool := c = ' ' || c = '\t' || c = '\r' || c = '\n'

def isLetter (c : Char) : Bool := c.isAlpha || c == '_'

def isSymbol (c : Char) : Bool :=
  c = '/' || c = '\"' || c = ':' || c = ';' || c = '.' || c = ',' || c = '{' || c = '}' ||
    c = '(' || c = ')' || c = '=' || c = '<' || c = '>' || c = '[' || c = ']'

def isQuery (c : Char) : Bool := isWord c || c = '.' || c = '[' || c = ']'

open Regex in
def regex : Rule → Regex Char
  | .whitespace => .star (.cls isBlank)
  | .comment => .seq (word ['/', '/']) (.star (.cls fun c ↦ c ≠ '\n'))
  | .namespaceSeparator => word [':', ':']
  | .symbol => .cls isSymbol
  | .keyword k => word k.text
  | .plus => word ['+']
  | .minus => word ['-']
  | .multicmBegin => word ['/', '*']
  | .intconstant => Regex.plus (.cls Char.isDigit)
  | .hexconstant => .seq (word ['0', 'x']) (Regex.plus (.cls isHexDigit))
  | .identifier =>
      .seq (.cls isLetter)
        (.star (.alt (.seq (.cls fun c ↦ c = '.') (.cls isWord)) (.cls isWord)))
  | .macroLine => .seq (word ['#']) (.star (.cls fun c ↦ c ≠ '\n'))
  | .dubconstant =>
      .seq (.star (.cls Char.isDigit))
        (.seq (opt (.seq (.cls fun c ↦ c = '.') (Regex.plus (.cls Char.isDigit))))
          (opt (.seq (.cls fun c ↦ c = 'e' || c = 'E')
            (.seq (opt (.cls fun c ↦ c = '+' || c = '-')) (Regex.plus (.cls Char.isDigit))))))
  | .queryString =>
      .seq (.cls fun c ↦ c = '[') (.seq (.star (.cls isQuery)) (.cls fun c ↦ c = ']'))
  | .unexpected => .cls fun c ↦ c ≠ '\n'

end Rule

/-! ## Actions -/

namespace Lexer

/-- What the parser gets.  A float keeps its text for `atof`. -/
inductive Token
  | symbol (c : Char)
  | namespaceSeparator
  | keyword (k : Keyword)
  | intConstant (iconst : ℤ)
  | identifier (id : List Char)
  | macroLine (vline : List Char)
  | dubConstant (text : List Char)
  | queryString (query : List Char)
  deriving DecidableEq

/-- A token as it is written. -/
def Token.text : Token → List Char
  | .symbol c => [c]
  | .namespaceSeparator => [':', ':']
  | .keyword k => k.text
  | .intConstant iconst => Nat.toDigits 10 iconst.natAbs
  | .identifier id => id
  | .macroLine vline => vline
  | .dubConstant text => text
  | .queryString query => query

/-- The loop of the action for `/*`; `seen` is the state behind a `*`.  At the end of the file
`yyinput` answers zero, which is not `EOF`. -/
def commentLoop : ℕ → Bool → List Char → Option (List Char)
  | 0, _, _ => none
  | fuel + 1, _, [] => commentLoop fuel false []
  | fuel + 1, seen, ch :: text =>
      if ch = '*' then commentLoop fuel true text
      else if ch = '/' then if seen then some text else commentLoop fuel false text
      else commentLoop fuel false text

/-- The value of a number; on an overflow the program exits. -/
def integer (digits : List Char) (base : ℕ) : Option ℤ :=
  if (strtoll digits base).2 then none else some (strtoll digits base).1

/-- The tokens of an action, and the text behind it. -/
def act (fuel : ℕ) (rule : Rule) (yytext text : List Char) : Option (List Token × List Char) :=
  match rule with
  | .whitespace | .comment | .unexpected => some ([], text)
  | .namespaceSeparator => some ([.namespaceSeparator], text)
  | .symbol | .plus | .minus => some (yytext.head?.toList.map .symbol, text)
  | .keyword k => some ([.keyword k], text)
  | .multicmBegin => (commentLoop fuel false text).map fun text ↦ ([], text)
  | .intconstant => (integer yytext 10).map fun n ↦ ([.intConstant n], text)
  | .hexconstant => (integer (yytext.drop 2) 16).map fun n ↦ ([.intConstant n], text)
  | .identifier => some ([.identifier yytext], text)
  | .macroLine => some ([.macroLine yytext], text)
  | .dubconstant => some ([.dubConstant yytext], text)
  | .queryString => some ([.queryString yytext], text)

/-- The tokens of a file, if the lexer comes to its end. -/
def lex : ℕ → List Char → Option (List Token)
  | _, [] => some []
  | 0, _ :: _ => none
  | fuel + 1, c :: text => do
      let (rule, n) ← best Rule.regex Rule.all (c :: text)
      let (tokens, rest) ← act fuel rule ((c :: text).take n) ((c :: text).drop n)
      let more ← lex fuel rest
      return tokens ++ more

/-! ## More fuel -/

variable {n m fuel fuel' : ℕ} {rule : Rule} {yytext text text' rest a b : List Char}
  {tokens ts us : List Token} {seen : Bool} {c : Char}

/-- At the end of the file the loop never ends. -/
theorem commentLoop_nil (n : ℕ) (seen : Bool) : commentLoop n seen [] = none := by
  induction n generalizing seen with
  | zero => rfl
  | succ n ih => exact ih false

theorem commentLoop_mono (h : commentLoop n seen text = some rest) (hle : n ≤ m) :
    commentLoop m seen text = some rest := by
  induction n generalizing m seen text with
  | zero => cases h
  | succ n ih =>
      obtain ⟨m, rfl⟩ := Nat.exists_eq_add_one.mpr (Nat.zero_lt_of_lt hle)
      have hle := Nat.le_of_succ_le_succ hle
      cases text with
      | nil => rw [commentLoop_nil] at h; cases h
      | cons ch text =>
          rw [commentLoop] at h ⊢
          split_ifs at h ⊢
          · exact ih h hle
          · exact h
          · exact ih h hle
          · exact ih h hle

theorem act_mono (h : act n rule yytext text = some (tokens, rest)) (hle : n ≤ m) :
    act m rule yytext text = some (tokens, rest) := by
  cases rule with
  | multicmBegin =>
      obtain ⟨rest', hloop, hrest⟩ := Option.map_eq_some_iff.mp h
      rw [act, commentLoop_mono hloop hle]
      exact congrArg some hrest
  | _ => exact h

theorem le_length_of_best {k : ℕ} (h : best Rule.regex Rule.all text = some (rule, k)) :
    k ≤ text.length := by
  obtain ⟨before, after, -, hfirst⟩ := first_of_best h
  rw [← hfirst.length_eq]
  exact Regex.longest_le _ _

theorem lex_cons_eq_some (h : lex (n + 1) (c :: text) = some ts) : ∃ rule k tokens rest more,
    best Rule.regex Rule.all (c :: text) = some (rule, k) ∧
      act n rule ((c :: text).take k) ((c :: text).drop k) = some (tokens, rest) ∧
        lex n rest = some more ∧ ts = tokens ++ more := by
  rw [lex] at h
  obtain ⟨⟨rule, k⟩, hbest, h⟩ := Option.bind_eq_some_iff.mp h
  obtain ⟨⟨tokens, rest⟩, hact, h⟩ := Option.bind_eq_some_iff.mp h
  obtain ⟨more, hmore, h⟩ := Option.bind_eq_some_iff.mp h
  exact ⟨rule, k, tokens, rest, more, hbest, hact, hmore, (Option.some.inj h).symm⟩

theorem lex_cons {k : ℕ} (hbest : best Rule.regex Rule.all (c :: text) = some (rule, k))
    (hact : act n rule ((c :: text).take k) ((c :: text).drop k) = some (tokens, rest)) :
    lex (n + 1) (c :: text) = (lex n rest).map (tokens ++ ·) := by
  rw [lex, hbest, Option.bind_eq_bind, Option.bind_some]
  dsimp only
  rw [hact, Option.bind_eq_bind, Option.bind_some]
  cases lex n rest <;> rfl

theorem lex_mono (h : lex n text = some ts) (hle : n ≤ m) : lex m text = some ts := by
  induction n generalizing m text ts with
  | zero =>
      cases text with
      | nil =>
          rw [lex] at h ⊢
          exact h
      | cons c text => cases h
  | succ n ih =>
      obtain ⟨m, rfl⟩ := Nat.exists_eq_add_one.mpr (Nat.zero_lt_of_lt hle)
      have hle := Nat.le_of_succ_le_succ hle
      cases text with
      | nil =>
          rw [lex] at h ⊢
          exact h
      | cons c text =>
          obtain ⟨rule, k, tokens, rest, more, hbest, hact, hmore, rfl⟩ := lex_cons_eq_some h
          rw [lex_cons hbest (act_mono hact hle), ih hmore hle]
          rfl

theorem lex_unique (h : lex n text = some ts) (h' : lex m text = some us) : ts = us := by
  have hleft := lex_mono h (Nat.le_max_left n m)
  rw [lex_mono h' (Nat.le_max_right n m)] at hleft
  exact (Option.some.inj hleft).symm

/-! ## Blanks -/

theorem starts_blank (hc : Rule.isBlank c = true) :
    Rule.all.all (fun r ↦ r = .whitespace || r = .unexpected || !r.regex.starts c) = true := by
  simp only [Rule.isBlank, Bool.or_eq_true, decide_eq_true_eq] at hc
  rcases hc with ((rfl | rfl) | rfl) | rfl <;> decide

theorem longest_cls_le (p : Char → Bool) (text : List Char) : (Regex.cls p).longest text ≤ 1 := by
  by_cases hzero : (Regex.cls p).longest text = 0
  · omega
  · obtain ⟨x, -, hx⟩ := Regex.take_longest hzero
    have hlength := congrArg List.length hx
    rw [List.length_take_of_le (Regex.longest_le _ _)] at hlength
    exact hlength.le

theorem best_blank (hc : Rule.isBlank c = true) (text : List Char) :
    best Rule.regex Rule.all (c :: text) =
      some (.whitespace, (text.takeWhile Rule.isBlank).length + 1) := by
  have hlength : (Rule.regex .whitespace).longest (c :: text) =
      (text.takeWhile Rule.isBlank).length + 1 := by
    rw [Rule.regex, Regex.longest_star_cls, List.takeWhile_cons_of_pos hc, List.length_cons]
  refine @best_of_first _ _ _ [] _ _ _ _ ⟨hlength, Nat.succ_pos _,
    fun _ hl ↦ absurd hl List.not_mem_nil, fun l hl ↦ ?_⟩
  have hl' := List.all_eq_true.mp (starts_blank hc) l (List.mem_cons_of_mem _ hl)
  rw [Bool.or_eq_true, Bool.or_eq_true, decide_eq_true_eq, decide_eq_true_eq] at hl'
  rcases hl' with (rfl | rfl) | hstarts
  · exact hlength.le
  · exact (longest_cls_le _ _).trans (Nat.succ_pos _)
  · rw [Regex.longest_eq_zero (by simpa using hstarts)]
    exact Nat.zero_le _

theorem lex_blank (hc : Rule.isBlank c = true) :
    lex (n + 1) (c :: text) = lex n (text.dropWhile Rule.isBlank) := by
  have hdrop : (c :: text).drop ((text.takeWhile Rule.isBlank).length + 1) =
      text.dropWhile Rule.isBlank := by
    rw [List.drop_succ_cons]
    nth_rewrite 2 [← @List.takeWhile_append_dropWhile _ Rule.isBlank text]
    exact List.drop_left
  rw [lex_cons (best_blank hc text) rfl, hdrop]
  exact Option.map_id'

theorem lex_dropWhile (h : lex n text = some ts) :
    lex n (text.dropWhile Rule.isBlank) = some ts := by
  cases text with
  | nil => exact h
  | cons c text =>
      by_cases hc : Rule.isBlank c = true
      · rw [List.dropWhile_cons_of_pos hc]
        cases n with
        | zero => cases h
        | succ n =>
            rw [lex_blank hc] at h
            exact lex_mono h (Nat.le_succ n)
      · rwa [List.dropWhile_cons_of_neg hc]

/-- Blanks before a text make no tokens. -/
theorem lex_blanks (ha : ∀ c ∈ a, Rule.isBlank c = true) (h : lex n b = some ts) :
    lex (n + 1) (a ++ b) = some ts := by
  cases a with
  | nil => exact lex_mono h (Nat.le_succ n)
  | cons c a =>
      obtain ⟨hc, ha⟩ := List.forall_mem_cons.mp ha
      rw [List.cons_append, lex_blank hc, List.dropWhile_append_of_pos ha]
      exact lex_dropWhile h

/-! ## Lines -/

theorem avoids_newline :
    Rule.all.all (fun r ↦ r = .whitespace || r.regex.avoids '\n') = true := by decide

theorem avoids_of_not_blank (hc : Rule.isBlank c = false) :
    (Rule.regex .whitespace).avoids c = true := by
  simp [Rule.regex, Regex.avoids, hc]

/-- Behind a text that is not blank alone, a line end changes no match. -/
theorem best_append_newline (ha : ¬ ∀ c ∈ a, Rule.isBlank c = true) (b : List Char) :
    best Rule.regex Rule.all (a ++ '\n' :: b) = best Rule.regex Rule.all a := by
  apply best_congr
  intro r hr
  have hr' := List.all_eq_true.mp avoids_newline r hr
  rw [Bool.or_eq_true, decide_eq_true_eq] at hr'
  rcases hr' with rfl | havoids
  · simp only [not_forall, Bool.not_eq_true] at ha
    obtain ⟨c, hc, hblank⟩ := ha
    have havoids := avoids_of_not_blank hblank
    obtain ⟨a₁, a₂, rfl⟩ := List.append_of_mem hc
    rw [List.append_assoc, List.cons_append, Regex.longest_append havoids,
      Regex.longest_append havoids]
  · exact Regex.longest_append havoids

theorem commentLoop_append (h : commentLoop n seen text = some rest) (b : List Char) :
    commentLoop n seen (text ++ b) = some (rest ++ b) := by
  induction n generalizing seen text with
  | zero => cases h
  | succ n ih =>
      cases text with
      | nil => rw [commentLoop_nil] at h; cases h
      | cons ch text =>
          rw [List.cons_append]
          rw [commentLoop] at h ⊢
          split_ifs at h ⊢
          · exact ih h
          · rw [Option.some.inj h]
          · exact ih h
          · exact ih h

theorem act_append (h : act n rule yytext text = some (tokens, rest)) (b : List Char) :
    act n rule yytext (text ++ b) = some (tokens, rest ++ b) := by
  cases rule with
  | multicmBegin =>
      obtain ⟨rest', hloop, hrest⟩ := Option.map_eq_some_iff.mp h
      cases hrest
      rw [act, commentLoop_append hloop]
      rfl
  | intconstant =>
      obtain ⟨n, hn, hrest⟩ := Option.map_eq_some_iff.mp h
      cases hrest
      rw [act, hn]
      rfl
  | hexconstant =>
      obtain ⟨n, hn, hrest⟩ := Option.map_eq_some_iff.mp h
      cases hrest
      rw [act, hn]
      rfl
  | _ =>
      cases h
      rfl

/-- The lexer takes a file line by line: what it reads before a line end does not change with
what stands behind it. -/
theorem lex_append_newline (ha : lex n a = some ts) (hb : lex m b = some us) :
    lex (n + m + 1) (a ++ '\n' :: b) = some (ts ++ us) := by
  -- by induction on the tokens of `a`; a match of one of them ends before the line end
  induction n generalizing a ts with
  | zero =>
      cases a with
      | cons c a => cases ha
      | nil =>
          rw [lex] at ha
          cases ha
          rw [Nat.zero_add]
          exact @lex_blanks m ['\n'] b us (fun c hc ↦ by rw [List.mem_singleton.mp hc]; rfl) hb
  | succ n ih =>
      by_cases hblank : ∀ c ∈ a, Rule.isBlank c = true
      · have hts : ts = [] := by
          have hlex := @lex_blanks 0 a [] [] hblank rfl
          rw [List.append_nil] at hlex
          have hmore := lex_mono hlex (Nat.succ_le_succ (Nat.zero_le n))
          exact Option.some.inj (ha.symm.trans hmore)
        have hall : ∀ c ∈ a ++ ['\n'], Rule.isBlank c = true := by
          intro c hc
          rcases List.mem_append.mp hc with hc | hc
          · exact hblank c hc
          · rw [List.mem_singleton.mp hc]
            rfl
        have hlex := lex_mono (lex_blanks hall hb) (show m + 1 ≤ n + 1 + m + 1 by omega)
        rw [List.append_assoc] at hlex
        rw [hts]
        exact hlex
      · cases a with
        | nil => exact absurd (fun c hc ↦ absurd hc List.not_mem_nil) hblank
        | cons c a =>
            obtain ⟨rule, k, tokens, rest, more, hbest, hact, hmore, rfl⟩ := lex_cons_eq_some ha
            have hk := le_length_of_best hbest
            have hbest' : best Rule.regex Rule.all (c :: (a ++ '\n' :: b)) = some (rule, k) :=
              (best_append_newline hblank b).trans hbest
            have hact' : act (n + m + 1) rule ((c :: (a ++ '\n' :: b)).take k)
                ((c :: (a ++ '\n' :: b)).drop k) = some (tokens, rest ++ '\n' :: b) := by
              rw [← List.cons_append, List.take_append_of_le_length hk,
                List.drop_append_of_le_length hk]
              exact act_mono (act_append hact _) (by omega)
            have hlex := lex_cons hbest' hact'
            rw [ih hmore, Option.map_some, ← List.append_assoc] at hlex
            rw [show n + 1 + m + 1 = n + m + 1 + 1 by omega]
            exact hlex

/-- What stands on lines of their own is read line by line. -/
theorem lex_lines {lines : List (List Char × List Token)}
    (h : ∀ line ∈ lines, ∃ n, lex n line.1 = some line.2) :
    ∃ n, lex n (lines.flatMap fun line ↦ line.1 ++ ['\n']) = some (lines.flatMap Prod.snd) := by
  induction lines with
  | nil => exact ⟨0, rfl⟩
  | cons line lines ih =>
      obtain ⟨⟨n, hn⟩, hlines⟩ := List.forall_mem_cons.mp h
      obtain ⟨m, hm⟩ := ih hlines
      refine ⟨n + m + 1, ?_⟩
      rw [List.flatMap_cons, List.flatMap_cons, List.append_assoc]
      exact lex_append_newline hn hm

/-! ## Comments of several lines -/

/-- The text behind the first `*/`. -/
def afterClose : List Char → Option (List Char)
  | [] => none
  | c :: text =>
      if c = '*' ∧ text.head? = some '/' then some text.tail else afterClose text

theorem afterClose_star (h : text.head? ≠ some '/') : afterClose ('*' :: text) = afterClose text :=
  if_neg fun hclose ↦ h hclose.2

theorem afterClose_of_ne (hc : c ≠ '*') (text : List Char) :
    afterClose (c :: text) = afterClose text :=
  if_neg fun hclose ↦ hc hclose.1

/-- The loop looks for the first `*/`, which can begin with the star that it has seen. -/
theorem commentLoop_eq (h : text.length < n) (seen : Bool) :
    commentLoop n seen text = afterClose (if seen then '*' :: text else text) := by
  induction text generalizing n seen with
  | nil =>
      rw [commentLoop_nil]
      cases seen <;> rfl
  | cons c text ih =>
      obtain ⟨n, rfl⟩ := Nat.exists_eq_add_one.mpr (Nat.zero_lt_of_lt h)
      have hn : text.length < n := Nat.lt_of_succ_lt_succ h
      have hloop : ∀ seen, commentLoop n seen text =
          afterClose (if seen then '*' :: text else text) := ih hn
      rw [commentLoop]
      by_cases hstar : c = '*'
      · subst hstar
        rw [if_pos rfl, hloop true]
        cases seen with
        | false => rfl
        | true => exact (afterClose_star (by simp)).symm
      · rw [if_neg hstar]
        by_cases hslash : c = '/'
        · subst hslash
          rw [if_pos rfl]
          cases seen with
          | false => exact (hloop false).trans (afterClose_of_ne hstar text).symm
          | true => rfl
        · rw [if_neg hslash, hloop false]
          cases seen with
          | false => exact (afterClose_of_ne hstar text).symm
          | true =>
              have hhead : (c :: text).head? ≠ some '/' := by simpa using hslash
              exact (afterClose_of_ne hstar text).symm.trans (afterClose_star hhead).symm

theorem afterClose_of_commentLoop (h : commentLoop n false text = some rest) :
    afterClose text = some rest := by
  have hmore := commentLoop_mono h (Nat.le_max_left n (text.length + 1))
  rwa [commentLoop_eq (Nat.le_max_right _ _)] at hmore

theorem starts_slash : Rule.all.all (fun r ↦ r = .comment || r = .symbol || r = .multicmBegin ||
    r = .unexpected || !r.regex.starts '/') = true := by decide

theorem longest_comment (text : List Char) :
    (Rule.regex .comment).longest ('/' :: '*' :: text) = 0 := by
  by_contra hne
  obtain ⟨u, hu, v, -, huv⟩ := Language.mem_mul.mp (Regex.take_longest hne)
  rw [Regex.mem_word.mp hu] at huv
  cases hk : (Rule.regex .comment).longest ('/' :: '*' :: text) with
  | zero => exact hne hk
  | succ k => cases k <;> simp [hk] at huv

/-- The beginning of a comment is not a token of another rule. -/
theorem longest_slash_star {r : Rule} (hr : r ∈ Rule.all) (hne : r ≠ .multicmBegin)
    (text : List Char) : r.regex.longest ('/' :: '*' :: text) ≤ 1 := by
  have hstarts := List.all_eq_true.mp starts_slash r hr
  simp only [Bool.or_eq_true, decide_eq_true_eq, Bool.not_eq_true'] at hstarts
  rcases hstarts with (((rfl | rfl) | rfl) | rfl) | hstarts
  · rw [longest_comment]
    exact Nat.zero_le _
  · exact longest_cls_le _ _
  · exact absurd rfl hne
  · exact longest_cls_le _ _
  · rw [Regex.longest_eq_zero hstarts]
    exact Nat.zero_le _

theorem best_multicmBegin (text : List Char) :
    best Rule.regex Rule.all ('/' :: '*' :: text) = some (.multicmBegin, 2) := by
  have hsplit : Rule.all = Rule.all.take 40 ++ .multicmBegin :: Rule.all.drop 41 := by decide
  have hother : ∀ r ∈ Rule.all.take 40 ++ Rule.all.drop 41, r ∈ Rule.all ∧ r ≠ .multicmBegin := by
    decide
  have hlength : (Rule.regex .multicmBegin).longest ('/' :: '*' :: text) = 2 := by
    apply Nat.le_antisymm
    · by_contra hlt
      have hmem := Regex.take_longest
        (show (Rule.regex .multicmBegin).longest ('/' :: '*' :: text) ≠ 0 by omega)
      have hword := congrArg List.length (Regex.mem_word.mp hmem)
      rw [List.length_take_of_le (Regex.longest_le _ _)] at hword
      exact hlt hword.le
    · exact Regex.le_longest (by simp) (Regex.mem_word.mpr rfl)
  rw [hsplit]
  refine best_of_first ⟨hlength, Nat.succ_pos _, fun r hr ↦ ?_, fun r hr ↦ ?_⟩
  · obtain ⟨hmem, hne⟩ := hother r (List.mem_append_left _ hr)
    exact Nat.lt_succ_of_le (longest_slash_star hmem hne text)
  · obtain ⟨hmem, hne⟩ := hother r (List.mem_append_right _ hr)
    exact (longest_slash_star hmem hne text).trans (Nat.le_succ 1)

theorem lex_multicmBegin (n : ℕ) (text : List Char) :
    lex (n + 1) ('/' :: '*' :: text) = (commentLoop n false text).bind fun rest ↦ lex n rest := by
  rw [lex, best_multicmBegin, Option.bind_eq_bind, Option.bind_some]
  change ((commentLoop n false text).map fun text ↦ (([] : List Token), text)).bind _ = _
  cases commentLoop n false text with
  | none => rfl
  | some rest => cases hrest : lex n rest <;> simp [hrest]

/-- An action does not end in two ways. -/
theorem act_eq_of_act (h : act n rule yytext text = some (tokens, rest))
    (h' : act m rule yytext text = some (us, text')) : us = tokens ∧ text' = rest := by
  have hleft := act_mono h (Nat.le_max_left n m)
  have hright := act_mono h' (Nat.le_max_right n m)
  rw [hleft] at hright
  cases hright
  exact ⟨rfl, rfl⟩

theorem lex_blanks_eq_none (ha : ∀ c ∈ a, Rule.isBlank c = true)
    (hhead : b.head?.all (!Rule.isBlank ·)) (hb : ∀ m, lex m b = none) (m : ℕ) :
    lex m (a ++ '\n' :: b) = none := by
  have hdrop : b.dropWhile Rule.isBlank = b := by
    cases b with
    | nil => rfl
    | cons c b => exact List.dropWhile_cons_of_neg (by simpa using hhead)
  have hline : ('\n' :: b).dropWhile Rule.isBlank = b := by
    rw [List.dropWhile_cons_of_pos rfl, hdrop]
  cases m with
  | zero => cases a <;> rfl
  | succ m =>
      cases a with
      | nil =>
          rw [List.nil_append, lex_blank rfl, hdrop]
          exact hb m
      | cons c a =>
          obtain ⟨hc, ha⟩ := List.forall_mem_cons.mp ha
          rw [List.cons_append, lex_blank hc, List.dropWhile_append_of_pos ha, hline]
          exact hb m

/-- A text that the lexer does not come through is not come through behind another one. -/
theorem lex_append_newline_eq_none (ha : lex n a = some ts) (hhead : b.head?.all (!Rule.isBlank ·))
    (hb : ∀ m, lex m b = none) (m : ℕ) : lex m (a ++ '\n' :: b) = none := by
  induction n generalizing a ts m with
  | zero =>
      cases a with
      | nil => exact @lex_blanks_eq_none [] b (fun _ hc ↦ absurd hc List.not_mem_nil) hhead hb m
      | cons c a => cases ha
  | succ n ih =>
      by_cases hblank : ∀ c ∈ a, Rule.isBlank c = true
      · exact lex_blanks_eq_none hblank hhead hb m
      · cases a with
        | nil => exact absurd (fun c hc ↦ absurd hc List.not_mem_nil) hblank
        | cons c a =>
            obtain ⟨rule, k, tokens, rest, more, hbest, hact, hmore, rfl⟩ := lex_cons_eq_some ha
            have hbest' : best Rule.regex Rule.all (c :: (a ++ '\n' :: b)) = some (rule, k) :=
              (best_append_newline hblank b).trans hbest
            cases m with
            | zero => rfl
            | succ m =>
                cases hact' : act m rule ((c :: (a ++ '\n' :: b)).take k)
                    ((c :: (a ++ '\n' :: b)).drop k) with
                | none =>
                    rw [List.cons_append, lex, hbest', Option.bind_eq_bind, Option.bind_some]
                    dsimp only
                    rw [hact']
                    rfl
                | some result =>
                    obtain ⟨us, text'⟩ := result
                    rw [List.cons_append, lex_cons hbest' hact']
                    have hk := le_length_of_best hbest
                    rw [← List.cons_append, List.take_append_of_le_length hk,
                      List.drop_append_of_le_length hk] at hact'
                    rw [(act_eq_of_act (act_append hact _) hact').2, ih hmore]
                    rfl

theorem lex_multicmBegin_mono {k : ℕ} (hclose : afterClose text = some b)
    (hb : lex k b = some us) : lex (k + text.length + 2) ('/' :: '*' :: text) = some us := by
  rw [lex_multicmBegin, commentLoop_eq (by omega)]
  change (afterClose text).bind _ = _
  rw [hclose]
  exact lex_mono hb (by omega)

/-- Behind a comment of several lines the lexer goes on at the first `*/`; without one it does not
come to an end. -/
theorem lex_comment (ha : lex n a = some ts) (text : List Char) (vs : List Token) :
    (∃ k, lex k (a ++ '\n' :: '/' :: '*' :: text) = some vs) ↔
      ∃ b us m, afterClose text = some b ∧ lex m b = some us ∧ vs = ts ++ us := by
  constructor
  · rintro ⟨k, hk⟩
    by_cases hend : ∃ b us m, afterClose text = some b ∧ lex m b = some us
    · obtain ⟨b, us, m, hclose, hb⟩ := hend
      refine ⟨b, us, m, hclose, hb, ?_⟩
      have hlex := lex_append_newline ha (lex_multicmBegin_mono hclose hb)
      exact lex_unique hk hlex
    · have hnone : ∀ k, lex k ('/' :: '*' :: text) = none := by
        intro k
        cases k with
        | zero => rfl
        | succ k =>
            rw [lex_multicmBegin]
            cases hloop : commentLoop k false text with
            | none => rfl
            | some b =>
                refine Option.eq_none_iff_forall_not_mem.mpr fun us hb ↦ hend ?_
                exact ⟨b, us, k, afterClose_of_commentLoop hloop, hb⟩
      rw [lex_append_newline_eq_none ha rfl hnone] at hk
      cases hk
  · rintro ⟨b, us, m, hclose, hb, rfl⟩
    exact ⟨_, lex_append_newline ha (lex_multicmBegin_mono hclose hb)⟩

theorem lex_comment_closed : ∃ k,
    lex k ['x', '\n', '/', '*', '/', '*', '*', '/', 'y'] =
      some [.identifier ['x'], .identifier ['y']] :=
  (@lex_comment 1 ['x'] [.identifier ['x']] (by decide +kernel) ['/', '*', '*', '/', 'y']
    [.identifier ['x'], .identifier ['y']]).mpr
      ⟨['y'], [.identifier ['y']], 1, by decide, by decide +kernel, rfl⟩

/-! ## Tokens -/

theorem act_of_mem (h : act n rule yytext text = some (tokens, rest)) {t : Token}
    (ht : t ∈ tokens) : act 0 rule yytext [] = some ([t], []) := by
  have hint : ∀ {value : Option ℤ},
      (value.map fun n ↦ ([Token.intConstant n], text)) = some (tokens, rest) →
        value.map (fun n ↦ ([Token.intConstant n], ([] : List Char))) = some ([t], []) := by
    rintro value h
    obtain ⟨n, rfl, hn⟩ := Option.map_eq_some_iff.mp h
    cases hn
    rw [List.mem_singleton.mp ht]
    rfl
  have hsymbol : some (yytext.head?.toList.map Token.symbol, text) = some (tokens, rest) →
      some (yytext.head?.toList.map Token.symbol, ([] : List Char)) = some ([t], []) := by
    intro h
    cases h
    cases yytext with
    | nil => cases ht
    | cons c yytext =>
        rw [List.mem_singleton.mp ht]
        rfl
  cases rule with
  | whitespace | comment | unexpected =>
      cases h
      cases ht
  | multicmBegin =>
      obtain ⟨rest', -, hrest⟩ := Option.map_eq_some_iff.mp h
      cases hrest
      cases ht
  | symbol | plus | minus => exact hsymbol h
  | intconstant | hexconstant => exact hint h
  | _ =>
      cases h
      rw [List.mem_singleton.mp ht]
      rfl

/-- Every token has been written as a text that makes it alone. -/
theorem best_of_mem_lex (h : lex n text = some ts) {t : Token} (ht : t ∈ ts) :
    ∃ rule yytext, best Rule.regex Rule.all yytext = some (rule, yytext.length) ∧
      act 0 rule yytext [] = some ([t], []) := by
  induction n generalizing text ts with
  | zero =>
      cases text with
      | nil =>
          rw [lex] at h
          cases h
          cases ht
      | cons c text => cases h
  | succ n ih =>
      cases text with
      | nil =>
          rw [lex] at h
          cases h
          cases ht
      | cons c text =>
          obtain ⟨rule, k, tokens, rest, more, hbest, hact, hmore, rfl⟩ := lex_cons_eq_some h
          rcases List.mem_append.mp ht with ht | ht
          · refine ⟨rule, (c :: text).take k, ?_, act_of_mem hact ht⟩
            rw [List.length_take_of_le (le_length_of_best hbest)]
            exact best_take hbest
          · exact ih hmore ht

theorem lex_of_best (hbest : best Rule.regex Rule.all text = some (rule, text.length))
    (hact : act 0 rule text [] = some (tokens, [])) : lex 1 text = some tokens := by
  cases text with
  | nil => cases hbest
  | cons c text =>
      rw [List.length_cons] at hbest
      have hact' : act 0 rule ((c :: text).take (text.length + 1))
          ((c :: text).drop (text.length + 1)) = some (tokens, []) := by
        rw [← List.length_cons, List.take_length, List.drop_length]
        exact hact
      rw [lex_cons hbest hact']
      exact congrArg some (List.append_nil tokens)

theorem mem_of_best (h : best Rule.regex Rule.all text = some (rule, text.length)) :
    text ∈ rule.regex.lang := by
  obtain ⟨before, after, -, hfirst⟩ := first_of_best h
  have hmem := @Regex.take_longest _ rule.regex text
  rw [hfirst.length_eq, List.take_length] at hmem
  exact hmem hfirst.pos.ne'

/-! ## Numbers -/

theorem starts_digit (d : Fin 10) :
    (Rule.all.take 41).all (fun r ↦ !r.regex.starts d.val.digitChar) = true := by
  revert d
  decide

theorem eq_digitChar (hc : c.isDigit = true) : ∃ d : Fin 10, c = d.val.digitChar := by
  obtain ⟨hlow, hhigh⟩ := Char.isDigit_iff_toNat.mp hc
  have hlow : 48 ≤ c.toNat := hlow
  have hhigh : c.toNat ≤ 57 := hhigh
  refine ⟨⟨c.toNat - 48, by omega⟩, Char.toNat_inj.mp ?_⟩
  rw [Nat.toNat_digitChar_of_lt_ten (by omega)]
  dsimp only
  omega

theorem best_digits {digits : List Char} (hne : digits ≠ [])
    (hdigits : ∀ c ∈ digits, c.isDigit = true) :
    best Rule.regex Rule.all digits = some (.intconstant, digits.length) := by
  have hsplit : Rule.all = Rule.all.take 41 ++ .intconstant :: Rule.all.drop 42 := by decide
  obtain ⟨c, text, rfl⟩ := List.exists_cons_of_ne_nil hne
  rw [hsplit]
  refine best_of_mem hne ?_ fun r hr hmem ↦ ?_
  · obtain ⟨hc, htext⟩ := List.forall_mem_cons.mp hdigits
    exact Language.mem_mul.mpr ⟨[c], ⟨c, hc, rfl⟩, text, Regex.mem_star_cls.mpr htext, rfl⟩
  · obtain ⟨d, hd⟩ := eq_digitChar (List.forall_mem_cons.mp hdigits).1
    have hstarts := List.all_eq_true.mp (starts_digit d) r hr
    rw [← hd, Regex.starts_of_mem hmem] at hstarts
    cases hstarts

theorem ofDigits_toDigits (n : ℕ) : ofDigits 10 (Nat.toDigits 10 n) = n := by
  have hdigits : ∀ c ∈ Nat.toDigits 10 n, c.isDigit = true :=
    fun c ↦ Nat.isDigit_of_mem_toDigits (by decide) (by decide)
  have hvalue : ∀ digits : List Char, (∀ c ∈ digits, c.isDigit = true) →
      ∀ m, digits.foldl (fun n c ↦ 10 * n + digitValue c) m = Nat.ofDigitChars 10 digits m := by
    intro digits hall
    induction digits with
    | nil => exact fun m ↦ Nat.ofDigitChars_nil.symm
    | cons c digits ih =>
        obtain ⟨hc, hall⟩ := List.forall_mem_cons.mp hall
        intro m
        rw [List.foldl_cons, ih hall, Nat.ofDigitChars_cons, digitValue, if_pos hc]
  rw [ofDigits, hvalue _ hdigits, Nat.ofDigitChars_ten_toDigits]

theorem integer_eq_some {digits : List Char} {base : ℕ} {iconst : ℤ}
    (h : integer digits base = some iconst) :
    iconst = ofDigits base digits ∧ iconst ≤ maxLongLong := by
  rw [integer, strtoll] at h
  by_cases hle : (ofDigits base digits : ℤ) ≤ maxLongLong
  · rw [if_pos hle] at h
    cases h
    exact ⟨rfl, hle⟩
  · rw [if_neg hle] at h
    cases h

theorem integer_toDigits {n : ℕ} (hn : (n : ℤ) ≤ maxLongLong) :
    integer (Nat.toDigits 10 n) 10 = some (n : ℤ) := by
  rw [integer, strtoll, ofDigits_toDigits, if_pos hn]
  rfl

/-! ## Printing -/

theorem lex_text_intConstant {base : ℕ} {iconst : ℤ} (h : integer yytext base = some iconst) :
    lex 1 (Token.intConstant iconst).text = some [.intConstant iconst] := by
  obtain ⟨hvalue, hle⟩ := integer_eq_some h
  have hdigits : ∀ c ∈ Nat.toDigits 10 iconst.natAbs, c.isDigit = true :=
    fun c ↦ Nat.isDigit_of_mem_toDigits (by decide) (by decide)
  have habs : (iconst.natAbs : ℤ) = iconst := by
    rw [hvalue]
    rfl
  refine lex_of_best (best_digits Nat.toDigits_ne_nil hdigits) ?_
  rw [act, Token.text, integer_toDigits (by rwa [habs]), habs]
  rfl

/-- A token that is written alone is read again. -/
theorem lex_text (hbest : best Rule.regex Rule.all yytext = some (rule, yytext.length))
    {t : Token} (hact : act 0 rule yytext [] = some ([t], [])) : lex 1 t.text = some [t] := by
  have hself : t.text = yytext → lex 1 t.text = some [t] := by
    intro htext
    rw [htext]
    exact lex_of_best hbest hact
  have hmem := mem_of_best hbest
  have hsymbol : ∀ {c : Char}, yytext = [c] →
      some (yytext.head?.toList.map Token.symbol, ([] : List Char)) = some ([t], []) →
        t.text = yytext := by
    rintro c rfl h
    cases h
    rfl
  cases rule with
  | whitespace | comment | multicmBegin | unexpected => cases hact
  | symbol =>
      obtain ⟨c, -, hc⟩ := hmem
      exact hself (hsymbol hc hact)
  | plus => exact hself (hsymbol (Regex.mem_word.mp hmem) hact)
  | minus => exact hself (hsymbol (Regex.mem_word.mp hmem) hact)
  | namespaceSeparator | keyword k =>
      cases hact
      exact hself (Regex.mem_word.mp hmem).symm
  | intconstant | hexconstant =>
      obtain ⟨iconst, hvalue, ht⟩ := Option.map_eq_some_iff.mp hact
      cases ht
      exact lex_text_intConstant hvalue
  | identifier | macroLine | dubconstant | queryString =>
      cases hact
      exact hself rfl

def print (ts : List Token) : List Char := ts.flatMap fun t ↦ t.text ++ ['\n']

/-- The tokens of a file, each written on a line of its own, are the tokens of what is written. -/
theorem lex_print (h : lex n text = some ts) : ∃ m, lex m (print ts) = some ts := by
  have hlines : ∀ line ∈ ts.map fun t ↦ (t.text, [t]), ∃ n, lex n line.1 = some line.2 := by
    intro line hline
    obtain ⟨t, ht, rfl⟩ := List.mem_map.mp hline
    obtain ⟨rule, yytext, hbest, hact⟩ := best_of_mem_lex h ht
    exact ⟨1, lex_text hbest hact⟩
  obtain ⟨m, hm⟩ := lex_lines hlines
  rw [List.flatMap_map, List.flatMap_map] at hm
  refine ⟨m, hm.trans ?_⟩
  rw [List.flatMap_singleton']

theorem lex_print_number : ∃ m,
    lex m (print [.identifier ['a'], .symbol '=', .intConstant 26]) =
      some [.identifier ['a'], .symbol '=', .intConstant 26] :=
  @lex_print 4 ['a', '=', ' ', '0', 'x', '1', 'a'] [.identifier ['a'], .symbol '=', .intConstant 26]
    (by decide +kernel)

/-! ## Identifiers -/

def keyword? : Rule → Option Keyword
  | .keyword k => some k
  | _ => none

theorem keywords_eq :
    keywords = (Rule.all.filterMap keyword?).map fun k ↦ String.ofList k.text := by decide

theorem mem_all (k : Keyword) : .keyword k ∈ Rule.all.take 43 := by cases k <;> decide

theorem contains_keywords {id : String} :
    keywords.contains id = true ↔ ∃ k : Keyword, id.toList = k.text := by
  rw [keywords_eq, List.contains_iff_mem, List.mem_map]
  constructor
  · rintro ⟨k, -, rfl⟩
    exact ⟨k, String.toList_ofList⟩
  · rintro ⟨k, hk⟩
    refine ⟨k, List.mem_filterMap.mpr ⟨_, List.mem_of_mem_take (mem_all k), rfl⟩, ?_⟩
    rw [← hk, String.ofList_toList]

theorem mem_tail : text ∈ (Regex.star (.alt (.seq (.cls fun c ↦ c = '.') (.cls isWord))
    (.cls isWord))).lang ↔ isTail text = true := by
  fun_induction isTail text with
  | case1 => exact iff_of_true (Regex.mem_star_iff.mpr (.inl rfl)) rfl
  | case2 c text ih =>
      rw [Regex.mem_star_iff, Bool.and_eq_true, ← ih]
      constructor
      · rintro (hnil | ⟨x, u, v, hu, hv, hsplit⟩)
        · cases hnil
        · obtain ⟨rfl, htext⟩ := List.cons.inj hsplit
          rcases (Language.mem_add _ _ _).mp hu with hu | hu
          · obtain ⟨dot, ⟨_, -, rfl⟩, w, ⟨d, hd, rfl⟩, hword⟩ := Language.mem_mul.mp hu
            cases hword
            cases htext
            exact ⟨hd, hv⟩
          · obtain ⟨_, hdot, hword⟩ := hu
            cases hword
            cases hdot
      · rintro ⟨hc, htext⟩
        refine .inr ⟨'.', [c], text, (Language.mem_add _ _ _).mpr (.inl ?_), htext, rfl⟩
        exact Language.mem_mul.mpr ⟨['.'], ⟨'.', rfl, rfl⟩, [c], ⟨c, hc, rfl⟩, rfl⟩
  | case3 c text hdot ih =>
      rw [Regex.mem_star_iff, Bool.and_eq_true, ← ih]
      constructor
      · rintro (hnil | ⟨x, u, v, hu, hv, hsplit⟩)
        · cases hnil
        · obtain ⟨rfl, htext⟩ := List.cons.inj hsplit
          rcases (Language.mem_add _ _ _).mp hu with hu | hu
          · obtain ⟨dot, ⟨y, hy, rfl⟩, w, ⟨d, hd, rfl⟩, hword⟩ := Language.mem_mul.mp hu
            cases hword
            exact absurd htext.symm (hdot d v (of_decide_eq_true hy))
          · obtain ⟨d, hd, hword⟩ := hu
            cases hword
            cases htext
            exact ⟨hd, hv⟩
      · rintro ⟨hc, htext⟩
        exact .inr ⟨c, [], text, (Language.mem_add _ _ _).mpr (.inr ⟨c, hc, rfl⟩), htext, rfl⟩

theorem mem_identifier : c :: text ∈ (Rule.regex .identifier).lang ↔
    Rule.isLetter c = true ∧ isTail text = true := by
  rw [← mem_tail]
  constructor
  · rintro hmem
    obtain ⟨u, ⟨x, hx, rfl⟩, v, hv, hsplit⟩ := Language.mem_mul.mp hmem
    obtain ⟨rfl, rfl⟩ := List.cons.inj hsplit
    exact ⟨hx, hv⟩
  · rintro ⟨hc, htext⟩
    exact Language.mem_mul.mpr ⟨[c], ⟨c, hc, rfl⟩, text, htext, rfl⟩

theorem not_isLetter :
    [' ', '\t', '\r', '\n', '/', '\"', ':', ';', '.', ',', '\x7b', '\x7d', '(', ')', '=', '<', '>',
      '[', ']', '+', '-', '0'].all (fun x ↦ !Rule.isLetter x) = true := by decide

theorem isDigit_of_isLetter (hc : Rule.isLetter c = true) : c.isDigit = false := by
  by_contra hdigit
  obtain ⟨d, rfl⟩ := eq_digitChar (Bool.not_eq_false _ ▸ hdigit)
  have hnone : ∀ d : Fin 10, Rule.isLetter d.val.digitChar = false := by decide
  rw [hnone d] at hc
  cases hc

theorem earlier_rules : (Rule.all.take 43).all (fun r ↦ (keyword? r).isSome ||
    r ∈ [.whitespace, .comment, .namespaceSeparator, .symbol, .plus, .minus, .multicmBegin,
      .intconstant, .hexconstant]) = true := by decide

/-- Of the rules before the one for identifiers, only words of the language begin with a
letter. -/
theorem starts_letter (hc : Rule.isLetter c = true) {r : Rule} (hr : r ∈ Rule.all.take 43) :
    (∃ k, r = .keyword k) ∨ r.regex.starts c = false := by
  have hchars : ∀ x, Rule.isLetter x = false → ¬ c = x := by
    rintro x hx rfl
    rw [hx] at hc
    cases hc
  have hall := List.all_eq_true.mp not_isLetter
  simp only [List.forall_mem_cons, Bool.not_eq_true'] at hall
  have hrule := List.all_eq_true.mp earlier_rules r hr
  rw [Bool.or_eq_true, decide_eq_true_eq] at hrule
  rcases hrule with hkeyword | hrule
  · cases r with
    | keyword k => exact .inl ⟨k, rfl⟩
    | _ => cases hkeyword
  · right
    simp only [List.mem_cons, List.not_mem_nil, or_false] at hrule
    rcases hrule with rfl | rfl | rfl | rfl | rfl | rfl | rfl | rfl | rfl <;>
      simp [Rule.regex, Regex.starts, Regex.word, Regex.plus, Regex.nullable, Rule.isBlank,
        Rule.isSymbol, isDigit_of_isLetter hc, hchars, hall]

theorem best_identifier {id : String} (h : isIdentifier id = true) :
    best Rule.regex Rule.all id.toList = some (.identifier, id.toList.length) := by
  have hsplit : Rule.all = Rule.all.take 43 ++ .identifier :: Rule.all.drop 44 := by decide
  rw [isIdentifier, Bool.and_eq_true, Bool.not_eq_true'] at h
  obtain ⟨hword, hkeyword⟩ := h
  have hkeyword : ¬ ∃ k : Keyword, id.toList = k.text := by
    rw [← contains_keywords, hkeyword]
    exact Bool.false_ne_true
  cases htext : id.toList with
  | nil =>
      rw [htext] at hword
      cases hword
  | cons c text =>
      rw [htext] at hword hkeyword
      dsimp only at hword
      rw [Bool.and_eq_true] at hword
      rw [hsplit]
      refine best_of_mem (List.cons_ne_nil _ _) (mem_identifier.mpr hword) fun r hr hmem ↦ ?_
      rcases starts_letter hword.1 hr with ⟨k, rfl⟩ | hstarts
      · exact hkeyword ⟨k, Regex.mem_word.mp hmem⟩
      · rw [Regex.starts_of_mem hmem] at hstarts
        cases hstarts

theorem best_keyword (k : Keyword) :
    best Rule.regex Rule.all k.text = some (.keyword k, k.text.length) := by
  cases k <;> decide +kernel

theorem isIdentifier_of_best {id : String}
    (h : best Rule.regex Rule.all id.toList = some (.identifier, id.toList.length)) :
    isIdentifier id = true := by
  have hmem := mem_of_best h
  have hkeyword : keywords.contains id = false := by
    rw [← Bool.not_eq_true, contains_keywords]
    rintro ⟨k, hk⟩
    -- the rule of the word stands before the one for identifiers
    rw [hk, best_keyword] at h
    cases h
  rw [isIdentifier, hkeyword]
  cases htext : id.toList with
  | nil =>
      rw [htext] at h
      cases h
  | cons c text =>
      rw [htext] at hmem
      obtain ⟨hc, htail⟩ := mem_identifier.mp hmem
      exact Bool.and_eq_true_iff.mpr ⟨Bool.and_eq_true_iff.mpr ⟨hc, htail⟩, rfl⟩

theorem eq_identifier_of_act {id : List Char}
    (h : act 0 rule yytext [] = some ([.identifier id], [])) :
    rule = .identifier ∧ yytext = id := by
  cases rule with
  | identifier =>
      cases h
      exact ⟨rfl, rfl⟩
  | symbol | plus | minus => cases yytext <;> cases h
  | intconstant | hexconstant =>
      obtain ⟨n, -, hn⟩ := Option.map_eq_some_iff.mp h
      cases hn
  | _ => cases h

/-- The names that the lexer can give out are the identifiers. -/
theorem lex_identifier (id : String) :
    (∃ n text ts, lex n text = some ts ∧ .identifier id.toList ∈ ts) ↔ isIdentifier id = true := by
  constructor
  · rintro ⟨n, text, ts, hlex, hmem⟩
    obtain ⟨rule, yytext, hbest, hact⟩ := best_of_mem_lex hlex hmem
    obtain ⟨rfl, rfl⟩ := eq_identifier_of_act hact
    exact isIdentifier_of_best hbest
  · intro h
    exact ⟨1, id.toList, _, lex_of_best (best_identifier h) rfl, List.mem_singleton_self _⟩

end Lexer

end WiseKernel.Idl
