import Mathlib.Data.Int.Init
import Mathlib.Data.List.TakeWhile
import WiseKernel.Idl.Names
import WiseKernel.Lib.SignedSum

/-!
# Constant expressions

From the literals of the lexer over the actions of the parser to the text in
C++.  A literal is an `int64_t` in the lexer and an `int` in the tree.
-/

namespace WiseKernel.Idl

open SignedSum

/-! ## Literals -/

def isHexDigit (c : Char) : Bool :=
  c.isDigit || ('a' ≤ c && c ≤ 'f') || ('A' ≤ c && c ≤ 'F')

def digitValue (c : Char) : ℕ :=
  if c.isDigit then c.toNat - '0'.toNat
  else if 'a' ≤ c then c.toNat - 'a'.toNat + 10
  else c.toNat - 'A'.toNat + 10

/-- The token for a number, with the digits behind the `0x` of a hexadecimal
one. -/
inductive IntConstant
  | intconstant (digits : List Char) (valid : digits ≠ [] ∧ digits.all Char.isDigit = true)
  | hexconstant (digits : List Char) (valid : digits ≠ [] ∧ digits.all isHexDigit = true)
  deriving DecidableEq

def ofDigits (base : ℕ) (digits : List Char) : ℕ :=
  digits.foldl (fun n c ↦ base * n + digitValue c) 0

/-- `LLONG_MAX`. -/
def maxLongLong : ℤ := 2 ^ 63 - 1

/-- The number, and whether `errno` is `ERANGE`; there is no sign before it. -/
def strtoll (digits : List Char) (base : ℕ) : ℤ × Bool :=
  if ofDigits base digits ≤ maxLongLong then (ofDigits base digits, false) else (maxLongLong, true)

/-- `yylval.iconst`; without one the lexer has left the program. -/
def IntConstant.iconst : IntConstant → Option ℤ
  | .intconstant digits _ =>
      let (n, erange) := strtoll digits 10
      if erange then none else some n
  | .hexconstant digits _ =>
      -- the sign is the `0` of `0x`
      let (n, erange) := strtoll digits 16
      if erange then none else some n

/-- The number that is written. -/
def IntConstant.value : IntConstant → ℤ
  | .intconstant digits _ => ofDigits 10 digits
  | .hexconstant digits _ => ofDigits 16 digits

theorem IntConstant.eq_value {lit : IntConstant} {n : ℤ} (h : lit.iconst = some n) :
    n = lit.value := by
  have hscan : ∀ base digits,
      (if (strtoll digits base).2 then none else some (strtoll digits base).1) = some n →
        n = ofDigits base digits := by
    intro base digits h
    rw [strtoll] at h
    split at h
    · cases h
      rfl
    · cases h
  cases lit with
  | intconstant digits _ => exact hscan 10 digits h
  | hexconstant digits _ => exact hscan 16 digits h

/-! ## Derivations -/

inductive InnerExpression
  | full (type : FullType)
  | plus (lit : IntConstant)
  | minus (lit : IntConstant)
  | int (lit : IntConstant)
  deriving DecidableEq

inductive SimpleExpression
  | plus (e : SimpleExpression) (i : InnerExpression)
  | minus (e : SimpleExpression) (i : InnerExpression)
  | inner (i : InnerExpression)
  deriving DecidableEq

/-! ## The tree -/

/-- `idl_expression_value`; the parser makes no value of the type `Simple`. -/
inductive ExpressionValue
  | full (type : FullType)
  | const (ivalue : ℤ)
  deriving DecidableEq

/-- The conversion from `int64_t` to `int` in the call of `set_const_value`. -/
def toInt (v : ℤ) : ℤ := v.bmod (2 ^ 32)

def setConstValue (v : ℤ) : ExpressionValue := .const (toInt v)

inductive Op
  | none | plus | minus
  deriving DecidableEq, Repr

/-- `idl_expression`; the operator is the one before it. -/
inductive Expression
  | mk (op : Op) (value : ExpressionValue) (exprs : List Expression)

namespace Expression

def setOpLink (op : Op) : Expression → Expression
  | ⟨_, value, exprs⟩ => ⟨op, value, exprs⟩

def addPlus : Expression → Expression → Expression
  | ⟨op, value, exprs⟩, next => ⟨op, value, exprs ++ [next.setOpLink .plus]⟩

def addMinus : Expression → Expression → Expression
  | ⟨op, value, exprs⟩, next => ⟨op, value, exprs ++ [next.setOpLink .minus]⟩

end Expression

def InnerExpression.parse : InnerExpression → Option Expression
  | .full type => some ⟨.none, .full type, []⟩
  | .plus lit => lit.iconst.map fun n ↦ ⟨.none, setConstValue n, []⟩
  | .minus lit => lit.iconst.map fun n ↦ ⟨.none, setConstValue (0 - n), []⟩
  | .int lit => lit.iconst.map fun n ↦ ⟨.none, setConstValue n, []⟩

def SimpleExpression.parse : SimpleExpression → Option Expression
  | .plus e i =>
      match e.parse, i.parse with
      | some expr, some next => some (expr.addPlus next)
      | _, _ => none
  | .minus e i =>
      match e.parse, i.parse with
      | some expr, some next => some (expr.addMinus next)
      | _, _ => none
  | .inner i => i.parse

/-! ## The text -/

namespace Cplus

/-- `os << n`. -/
def printInt (n : ℤ) : List Char :=
  if n < 0 then '-' :: Nat.toDigits 10 n.natAbs else Nat.toDigits 10 n.natAbs

/-- The default of a field of type `float` is written as one. -/
def floatSuffix : Option Field → List Char
  | some ⟨.basic (.simple .float), _⟩ => ['.', 'f']
  | _ => []

def generateExpressionValue (field : Option Field) : ExpressionValue → List Char
  | .const ivalue => printInt ivalue ++ floatSuffix field
  | .full type => (type.getTypenameIn "::").toList

def generateOperator : Op → Except String (List Char)
  | .plus => .ok [' ', '+', ' ']
  | .minus => .ok [' ', '-', ' ']
  | .none => .error "Invalid expression operator"

mutual

def generateExpression (field : Option Field) : Expression → Except String (List Char)
  | ⟨_, value, exprs⟩ =>
      match generateExprs field exprs with
      | .ok text => .ok (generateExpressionValue field value ++ text)
      | .error e => .error e

/-- The loop over the expressions behind the value. -/
def generateExprs (field : Option Field) : List Expression → Except String (List Char)
  | [] => .ok []
  | ⟨op, value, exprs⟩ :: rest =>
      match generateOperator op, generateExpression field ⟨op, value, exprs⟩,
        generateExprs field rest with
      | .ok sign, .ok text, .ok texts => .ok (sign ++ text ++ texts)
      | .error e, _, _ => .error e
      | _, .error e, _ => .error e
      | _, _, .error e => .error e

end

/-! ## Reading C++ -/

/-- What numbers and names are made of. -/
def isOperandChar (c : Char) : Bool := isWord c || c == '.' || c == ':'

/-- The operand before the tokens, if there is one. -/
def withOperand (run : List Char) (tokens : List (Token (List Char))) :
    List (Token (List Char)) :=
  if run = [] then tokens else .operand run :: tokens

/-- The tokens behind the part `run` of an operand.  `++` and `--` are tokens of
their own, and no such expression has one. -/
def tokenize : List Char → List Char → Option (List (Token (List Char)))
  | run, [] => some (withOperand run [])
  | run, c :: cs =>
      if c = ' ' then (tokenize [] cs).map (withOperand run)
      else if c = '+' then
        if cs.head? = some '+' then none
        else (tokenize [] cs).map fun tokens ↦ withOperand run (.plus :: tokens)
      else if c = '-' then
        if cs.head? = some '-' then none
        else (tokenize [] cs).map fun tokens ↦ withOperand run (.minus :: tokens)
      else if isOperandChar c then tokenize (run ++ [c]) cs
      else none

/-- A number; one that begins with a zero and is no `float` is octal. -/
def literalValue (run : List Char) : Option ℤ :=
  let digits := run.takeWhile Char.isDigit
  match run.dropWhile Char.isDigit with
  | ['.', 'f'] => some (Nat.ofDigitChars 10 digits 0)
  | [] =>
      if digits.head? ≠ some '0' then some (Nat.ofDigitChars 10 digits 0)
      else if digits.all fun c ↦ c < '8' then some (Nat.ofDigitChars 8 digits 0)
      else none
  | _ => none

def operandValue (env : String → ℤ) (run : List Char) : Option ℤ :=
  match run with
  | [] => none
  | c :: _ => if c.isDigit then literalValue run else some (env (String.ofList run))

/-- The value that a text has in C++, over the integers. -/
def Denotes (env : String → ℤ) (text : List Char) (v : ℤ) : Prop :=
  ∃ tokens, tokenize [] text = some tokens ∧ Sum (operandValue env) tokens v

theorem Denotes.unique {env : String → ℤ} {text : List Char} {v w : ℤ} (hv : Denotes env text v)
    (hw : Denotes env text w) : v = w := by
  obtain ⟨tokens, htokens, hsum⟩ := hv
  obtain ⟨tokens', htokens', hsum'⟩ := hw
  rw [htokens'] at htokens
  cases htokens
  exact hsum.unique hsum'

end Cplus

/-! ## The value of the source -/

def InnerExpression.eval (env : String → ℤ) : InnerExpression → ℤ
  | .full type => env (type.getTypenameIn "::")
  | .plus lit => lit.value
  | .minus lit => -lit.value
  | .int lit => lit.value

/-- From left to right, over the integers. -/
def SimpleExpression.eval (env : String → ℤ) : SimpleExpression → ℤ
  | .plus e i => e.eval env + i.eval env
  | .minus e i => e.eval env - i.eval env
  | .inner i => i.eval env

/-- What a literal loses when it becomes an `int`. -/
def InnerExpression.lost : InnerExpression → ℤ
  | .full _ => 0
  | .plus lit => lit.value - toInt lit.value
  | .minus lit => -lit.value - toInt (-lit.value)
  | .int lit => lit.value - toInt lit.value

def SimpleExpression.lost : SimpleExpression → ℤ
  | .plus e i => e.lost + i.lost
  | .minus e i => e.lost - i.lost
  | .inner i => i.lost

namespace Cplus

/-! ## Tokens -/

theorem tokenize_cons {c : Char} (hc : isOperandChar c = true) (run cs : List Char) :
    tokenize run (c :: cs) = tokenize (run ++ [c]) cs := by
  have hne : ∀ d, isOperandChar d = false → c ≠ d := by
    rintro d hd rfl
    rw [hc] at hd
    cases hd
  rw [tokenize, if_neg (hne ' ' rfl), if_neg (hne '+' rfl), if_neg (hne '-' rfl), if_pos hc]

theorem tokenize_operand {w : List Char} (hw : ∀ c ∈ w, isOperandChar c = true)
    (run cs : List Char) : tokenize run (w ++ cs) = tokenize (run ++ w) cs := by
  induction w generalizing run with
  | nil => rw [List.append_nil, List.nil_append]
  | cons c w ih =>
      rw [List.cons_append, tokenize_cons (hw c List.mem_cons_self),
        ih fun x hx ↦ hw x (List.mem_cons_of_mem c hx), List.append_assoc, List.singleton_append]

theorem withOperand_nil : withOperand [] = id := rfl

theorem withOperand_of_ne_nil {w : List Char} (hw : w ≠ []) :
    withOperand w = ([.operand w] ++ ·) := by
  funext tokens
  rw [withOperand, if_neg hw]
  rfl

theorem tokenize_space (cs : List Char) : tokenize [] (' ' :: cs) = tokenize [] cs := by
  rw [tokenize, if_pos rfl, withOperand_nil, Option.map_id, id]

/-- An operand ends at the end of the text or at a space. -/
def Ends (rest : List Char) : Prop := rest = [] ∨ ∃ cs, rest = ' ' :: cs

theorem tokenize_of_ends {rest : List Char} (hrest : Ends rest) {w : List Char} (hw : w ≠ []) :
    tokenize w rest = (tokenize [] rest).map ([.operand w] ++ ·) := by
  rw [← withOperand_of_ne_nil hw]
  rcases hrest with rfl | ⟨cs, rfl⟩
  · rfl
  · rw [tokenize_space, tokenize, if_pos rfl]

/-- The text has the given tokens, whatever stands behind it. -/
def Tokens (text : List Char) (tokens : List (Token (List Char))) : Prop :=
  ∀ rest, Ends rest → tokenize [] (text ++ rest) = (tokenize [] rest).map (tokens ++ ·)

theorem tokens_operand {w : List Char} (hw : ∀ c ∈ w, isOperandChar c = true) (hne : w ≠ []) :
    Tokens w [.operand w] := by
  intro rest hrest
  rw [tokenize_operand hw, List.nil_append, tokenize_of_ends hrest hne]

theorem tokens_minus {w : List Char} (hw : ∀ c ∈ w, isOperandChar c = true) (hne : w ≠ []) :
    Tokens ('-' :: w) [.minus, .operand w] := by
  intro rest hrest
  have hoperand := tokens_operand hw hne rest hrest
  have hminus : tokenize [] ('-' :: (w ++ rest)) =
      (tokenize [] (w ++ rest)).map fun tokens ↦ withOperand [] (.minus :: tokens) := by
    have hhead : (w ++ rest).head? ≠ some '-' := by
      cases w with
      | nil => exact absurd rfl hne
      | cons c w =>
          rintro ⟨⟩
          exact absurd (hw '-' List.mem_cons_self) (by decide)
    rw [tokenize, if_neg (by decide), if_neg (by decide), if_pos rfl, if_neg hhead]
  rw [List.cons_append, hminus, hoperand, Option.map_map]
  rfl

theorem Tokens.append {text text' : List Char} {tokens tokens' : List (Token (List Char))}
    (h : Tokens text tokens) (h' : Tokens text' tokens') {c : Char} {token : Token (List Char)}
    (hc : ∀ cs, tokenize [] (c :: ' ' :: cs) = (tokenize [] (' ' :: cs)).map (token :: ·)) :
    Tokens (text ++ ([' ', c, ' '] ++ text')) (tokens ++ token :: tokens') := by
  intro rest hrest
  have hbetween : tokenize [] (' ' :: c :: ' ' :: (text' ++ rest)) =
      (tokenize [] rest).map (token :: tokens' ++ ·) := by
    rw [tokenize_space, hc, tokenize_space, h' rest hrest, Option.map_map]
    rfl
  have hfirst := h (' ' :: c :: ' ' :: (text' ++ rest)) (.inr ⟨_, rfl⟩)
  rw [hbetween, Option.map_map] at hfirst
  simpa [Function.comp_def] using hfirst

theorem tokenize_plus (cs : List Char) :
    tokenize [] ('+' :: ' ' :: cs) = (tokenize [] (' ' :: cs)).map (.plus :: ·) := by
  rw [tokenize]
  rfl

theorem tokenize_minus (cs : List Char) :
    tokenize [] ('-' :: ' ' :: cs) = (tokenize [] (' ' :: cs)).map (.minus :: ·) := by
  rw [tokenize]
  rfl

theorem denotes_of_tokens {env : String → ℤ} {text : List Char} {tokens : List (Token (List Char))}
    {v : ℤ} (h : Tokens text tokens) (hsum : Sum (operandValue env) tokens v) :
    Denotes env text v := by
  have hall := h [] (.inl rfl)
  rw [List.append_nil] at hall
  exact ⟨tokens, by simpa [tokenize, withOperand] using hall, hsum⟩

/-! ## Operands -/

theorem isOperandChar_of_isDigit {c : Char} (h : c.isDigit = true) : isOperandChar c = true := by
  simp [isOperandChar, isWord, Char.isAlphanum, h]

theorem head?_toDigits {n : ℕ} (hn : n ≠ 0) : (Nat.toDigits 10 n).head? ≠ some '0' := by
  induction n using Nat.strong_induction_on with
  | _ n ih =>
      by_cases hlt : n < 10
      · have hdigit : ∀ d : Fin 10, d ≠ 0 → d.val.digitChar ≠ '0' := by decide
        rw [Nat.toDigits_of_lt_base hlt, List.head?_cons]
        intro hzero
        exact hdigit ⟨n, hlt⟩ (by simpa [Fin.ext_iff] using hn) (Option.some.inj hzero)
      · rw [Nat.toDigits_of_base_le (by decide) (Nat.le_of_not_lt hlt), List.head?_append]
        have hdiv := ih (n / 10) (Nat.div_lt_self (by omega) (by decide)) (by omega)
        cases hhead : (Nat.toDigits 10 (n / 10)).head? with
        | none => exact absurd (List.head?_eq_none_iff.mp hhead) Nat.toDigits_ne_nil
        | some c =>
            rw [hhead] at hdiv
            exact hdiv

theorem floatSuffix_cases (field : Option Field) :
    floatSuffix field = [] ∨ floatSuffix field = ['.', 'f'] := by
  unfold floatSuffix
  split
  · exact .inr rfl
  · exact .inl rfl

theorem literalValue_toDigits (n : ℕ) (field : Option Field) :
    literalValue (Nat.toDigits 10 n ++ floatSuffix field) = some (n : ℤ) := by
  have hdigits : ∀ c ∈ Nat.toDigits 10 n, c.isDigit = true :=
    fun c ↦ Nat.isDigit_of_mem_toDigits (by decide) (by decide)
  rcases floatSuffix_cases field with hsuffix | hsuffix
  · have htake : (Nat.toDigits 10 n).takeWhile Char.isDigit = Nat.toDigits 10 n :=
      List.takeWhile_eq_self_iff.mpr hdigits
    have hdrop : (Nat.toDigits 10 n).dropWhile Char.isDigit = [] :=
      List.dropWhile_eq_nil_iff.mpr hdigits
    rw [hsuffix, List.append_nil, literalValue, htake, hdrop]
    by_cases hn : n = 0
    · rw [hn]
      rfl
    · dsimp only
      rw [if_pos (head?_toDigits hn), Nat.ofDigitChars_ten_toDigits]
  · rw [hsuffix, literalValue, List.takeWhile_append_of_pos hdigits,
      List.dropWhile_append_of_pos hdigits]
    have htake : List.takeWhile Char.isDigit ['.', 'f'] = [] := rfl
    have hdrop : List.dropWhile Char.isDigit ['.', 'f'] = ['.', 'f'] := rfl
    rw [htake, hdrop, List.append_nil, Nat.ofDigitChars_ten_toDigits]
    rfl

theorem operandValue_toDigits (env : String → ℤ) (n : ℕ) (field : Option Field) :
    operandValue env (Nat.toDigits 10 n ++ floatSuffix field) = some (n : ℤ) := by
  have hvalue := literalValue_toDigits n field
  cases hdigits : Nat.toDigits 10 n with
  | nil => exact absurd hdigits Nat.toDigits_ne_nil
  | cons c cs =>
      have hc : c.isDigit = true := by
        apply Nat.isDigit_of_mem_toDigits (b := 10) (n := n) (by decide) (by decide)
        rw [hdigits]
        exact List.mem_cons_self
      rw [hdigits, List.cons_append] at hvalue
      rw [List.cons_append, operandValue, if_pos hc, hvalue]

/-- What a printed number is read as. -/
theorem tokens_printInt (env : String → ℤ) (n : ℤ) (field : Option Field) :
    ∃ tokens, Tokens (printInt n ++ floatSuffix field) tokens ∧
      Unary (operandValue env) tokens n := by
  have hchars : ∀ c ∈ Nat.toDigits 10 n.natAbs ++ floatSuffix field,
      isOperandChar c = true := by
    intro c hc
    rcases List.mem_append.mp hc with hc | hc
    · exact isOperandChar_of_isDigit (Nat.isDigit_of_mem_toDigits (by decide) (by decide) hc)
    · rcases floatSuffix_cases field with hsuffix | hsuffix
      · rw [hsuffix] at hc
        cases hc
      · have hsuffix' : ['.', 'f'].all isOperandChar = true := by decide
        rw [hsuffix] at hc
        exact List.all_eq_true.mp hsuffix' c hc
  have hne : Nat.toDigits 10 n.natAbs ++ floatSuffix field ≠ [] :=
    List.append_ne_nil_of_left_ne_nil Nat.toDigits_ne_nil _
  have hunary := Unary.operand (operandValue_toDigits env n.natAbs field)
  rw [printInt]
  split
  next hneg =>
    refine ⟨_, tokens_minus hchars hne, ?_⟩
    have hvalue : n = -(n.natAbs : ℤ) := by omega
    rw [hvalue, Int.natAbs_neg, Int.natAbs_natCast]
    exact Unary.minus hunary
  next hpos =>
    refine ⟨_, tokens_operand hchars hne, ?_⟩
    have hvalue : (n.natAbs : ℤ) = n := by omega
    rw [hvalue] at hunary
    exact hunary

theorem isDigit_eq_false_of_isAlpha {c : Char} (h : c.isAlpha = true) : c.isDigit = false := by
  have hdigit : c.isDigit = true → c.val ≤ '9'.val := by
    intro hdigit
    exact of_decide_eq_true (Bool.and_eq_true_iff.mp hdigit).2
  have hupper : c.isUpper = true → 'A'.val ≤ c.val := by
    intro hupper
    exact (of_decide_eq_true hupper).1
  have hlower : c.isLower = true → 'a'.val ≤ c.val := by
    intro hlower
    exact of_decide_eq_true (Bool.and_eq_true_iff.mp hlower).1
  rw [Bool.eq_false_iff]
  intro htrue
  have hle := hdigit htrue
  rcases Bool.or_eq_true_iff.mp h with halpha | halpha
  · exact absurd (UInt32.le_trans (hupper halpha) hle) (by decide)
  · exact absurd (UInt32.le_trans (hlower halpha) hle) (by decide)

theorem exists_toList_text (name : Identifier) :
    ∃ c cs, name.text.toList = c :: cs ∧ c.isDigit = false := by
  have hvalid := name.valid
  rw [isIdentifier, Bool.and_eq_true] at hvalid
  cases htext : name.text.toList with
  | nil =>
      rw [htext] at hvalid
      exact absurd hvalid.1 Bool.false_ne_true
  | cons c cs =>
      rw [htext, Bool.and_eq_true, Bool.or_eq_true] at hvalid
      refine ⟨c, cs, rfl, ?_⟩
      rcases hvalid.1.1 with halpha | hline
      · exact isDigit_eq_false_of_isAlpha halpha
      · rw [beq_iff_eq.mp hline]
        rfl

theorem exists_toList_typename (type : FullType) :
    ∃ c cs, (type.getTypenameIn "::").toList = c :: cs ∧ c.isDigit = false := by
  obtain ⟨ns, id⟩ := type
  cases ns with
  | nil =>
      obtain ⟨c, cs, htext, hc⟩ := exists_toList_text id
      refine ⟨c, cs, ?_, hc⟩
      rw [FullType.getTypenameIn, namespaceString, String.empty_append, htext]
  | cons n ns =>
      obtain ⟨c, cs, htext, hc⟩ := exists_toList_text n
      refine ⟨c, cs ++ ("::" ++ namespaceString "::" ns ++ id.text).toList, ?_, hc⟩
      simp [FullType.getTypenameIn, namespaceString, htext]

theorem isOperandChar_text (name : Identifier) :
    ∀ c ∈ name.text.toList, isOperandChar c = true := by
  intro c hc
  rcases name.chars c hc with hword | rfl
  · simp [isOperandChar, hword]
  · rfl

theorem isOperandChar_typename (type : FullType) :
    ∀ c ∈ (type.getTypenameIn "::").toList, isOperandChar c = true := by
  obtain ⟨ns, id⟩ := type
  have hns : ∀ c ∈ (namespaceString "::" ns).toList, isOperandChar c = true := by
    induction ns with
    | nil => simp [namespaceString]
    | cons n ns ih =>
        intro c hc
        rw [namespaceString, String.toList_append, String.toList_append] at hc
        rcases List.mem_append.mp hc with hc | hc
        · rcases List.mem_append.mp hc with hc | hc
          · exact isOperandChar_text n c hc
          · have hsep : "::".toList.all isOperandChar = true := by decide
            exact List.all_eq_true.mp hsep c hc
        · exact ih c hc
  intro c hc
  rw [FullType.getTypenameIn, String.toList_append] at hc
  rcases List.mem_append.mp hc with hc | hc
  · exact hns c hc
  · exact isOperandChar_text id c hc

/-- A qualified name is one operand. -/
theorem tokens_typename (env : String → ℤ) (type : FullType) :
    ∃ tokens, Tokens (type.getTypenameIn "::").toList tokens ∧
      Unary (operandValue env) tokens (env (type.getTypenameIn "::")) := by
  obtain ⟨c, cs, htext, hc⟩ := exists_toList_typename type
  refine ⟨_, tokens_operand (isOperandChar_typename type) ?_, Unary.operand ?_⟩
  · rw [htext]
    exact List.cons_ne_nil c cs
  · rw [htext, operandValue, if_neg (by rw [hc]; exact Bool.false_ne_true), ← htext,
      String.ofList_toList]

/-! ## Expressions -/

/-- A literal is read as what is left of it. -/
theorem reads_inner {i : InnerExpression} {expr : Expression} (h : i.parse = some expr)
    (field : Option Field) (env : String → ℤ) :
    ∃ value, expr = ⟨.none, value, []⟩ ∧
      ∃ tokens, Tokens (generateExpressionValue field value) tokens ∧
        Unary (operandValue env) tokens (i.eval env - i.lost) := by
  have hliteral : ∀ v : ℤ, ∃ tokens,
      Tokens (generateExpressionValue field (setConstValue v)) tokens ∧
        Unary (operandValue env) tokens (v - (v - toInt v)) := by
    intro v
    rw [Int.sub_sub_self]
    exact tokens_printInt env (toInt v) field
  cases i with
  | full type =>
      cases h
      refine ⟨.full type, rfl, ?_⟩
      rw [InnerExpression.lost, Int.sub_zero]
      exact tokens_typename env type
  | plus lit =>
      obtain ⟨n, hn, rfl⟩ := Option.map_eq_some_iff.mp h
      rw [IntConstant.eq_value hn]
      exact ⟨_, rfl, hliteral lit.value⟩
  | minus lit =>
      obtain ⟨n, hn, rfl⟩ := Option.map_eq_some_iff.mp h
      rw [IntConstant.eq_value hn, Int.zero_sub]
      exact ⟨_, rfl, hliteral (-lit.value)⟩
  | int lit =>
      obtain ⟨n, hn, rfl⟩ := Option.map_eq_some_iff.mp h
      rw [IntConstant.eq_value hn]
      exact ⟨_, rfl, hliteral lit.value⟩

theorem generateExprs_concat {field : Option Field} {exprs : List Expression}
    {text sign : List Char}
    {op : Op} (h : generateExprs field exprs = .ok text) (hop : generateOperator op = .ok sign)
    (value : ExpressionValue) :
    generateExprs field (exprs ++ [⟨op, value, []⟩]) =
      .ok (text ++ (sign ++ generateExpressionValue field value)) := by
  induction exprs generalizing text with
  | nil =>
      cases h
      simp [generateExprs, generateExpression, hop]
  | cons expr exprs ih =>
      obtain ⟨op', value', exprs'⟩ := expr
      rw [generateExprs] at h
      split at h
      next sign' text' texts hsign htext htexts =>
        cases h
        rw [List.cons_append, generateExprs, hsign, htext, ih htexts]
        simp
      · cases h
      · cases h
      · cases h

/-- Another operand is written behind all that was written before. -/
theorem generateExpression_concat {field : Option Field} {op₀ : Op} {value₀ : ExpressionValue}
    {exprs : List Expression} {text sign : List Char} {op : Op}
    (h : generateExpression field ⟨op₀, value₀, exprs⟩ = .ok text)
    (hop : generateOperator op = .ok sign) (value : ExpressionValue) :
    generateExpression field ⟨op₀, value₀, exprs ++ [⟨op, value, []⟩]⟩ =
      .ok (text ++ (sign ++ generateExpressionValue field value)) := by
  rw [generateExpression] at h
  split at h
  next rest hrest =>
    cases h
    rw [generateExpression, generateExprs_concat hrest hop value]
    simp
  · cases h

/-- The text of the whole expression lacks what its literals have lost. -/
theorem reads_simple {e : SimpleExpression} {expr : Expression} (h : e.parse = some expr)
    (field : Option Field) (env : String → ℤ) :
    ∃ text, generateExpression field expr = .ok text ∧
      ∃ tokens, Tokens text tokens ∧
        Sum (operandValue env) tokens (e.eval env - e.lost) := by
  induction e generalizing expr with
  | plus e i ih =>
      rw [SimpleExpression.parse] at h
      split at h
      next expr₀ next hexpr hnext =>
        cases h
        obtain ⟨text, htext, tokens, htokens, hsum⟩ := ih hexpr
        obtain ⟨value, rfl, tokens', htokens', hunary⟩ := reads_inner hnext field env
        obtain ⟨op₀, value₀, exprs⟩ := expr₀
        refine ⟨_, generateExpression_concat htext rfl value, _,
          htokens.append htokens' tokenize_plus, ?_⟩
        have hvalue := Sum.plus hsum hunary
        rw [SimpleExpression.eval, SimpleExpression.lost, add_sub_add_comm]
        exact hvalue
      · cases h
  | minus e i ih =>
      rw [SimpleExpression.parse] at h
      split at h
      next expr₀ next hexpr hnext =>
        cases h
        obtain ⟨text, htext, tokens, htokens, hsum⟩ := ih hexpr
        obtain ⟨value, rfl, tokens', htokens', hunary⟩ := reads_inner hnext field env
        obtain ⟨op₀, value₀, exprs⟩ := expr₀
        refine ⟨_, generateExpression_concat htext rfl value, _,
          htokens.append htokens' tokenize_minus, ?_⟩
        have hvalue := Sum.minus hsum hunary
        rw [SimpleExpression.eval, SimpleExpression.lost, sub_sub_sub_comm]
        exact hvalue
      · cases h
  | inner i =>
      obtain ⟨value, rfl, tokens, htokens, hunary⟩ := reads_inner h field env
      refine ⟨generateExpressionValue field value, ?_, tokens, htokens, Sum.unary hunary⟩
      rw [generateExpression, generateExprs]
      simp

/-- The text means what the expression does if the losses cancel. -/
theorem denotes_eval_iff {e : SimpleExpression} {expr : Expression} (h : e.parse = some expr)
    (field : Option Field) (env : String → ℤ) :
    ∃ text, generateExpression field expr = .ok text ∧
      (Denotes env text (e.eval env) ↔ e.lost = 0) := by
  obtain ⟨text, htext, tokens, htokens, hsum⟩ := reads_simple h field env
  have hdenotes := denotes_of_tokens htokens hsum
  refine ⟨text, htext, ?_⟩
  constructor
  · intro heval
    have heq := heval.unique hdenotes
    omega
  · intro hlost
    rw [hlost, Int.sub_zero] at hdenotes
    exact hdenotes

/-- `base - -7`. -/
theorem denotes_minus_minus : ∃ text,
    generateExpression none ⟨.none, .full ⟨[], ⟨"base", by decide⟩⟩, [⟨.minus, .const (-7), []⟩]⟩ =
      .ok text ∧ Denotes (fun _ ↦ 5) text 12 := by
  obtain ⟨text, htext, hdenotes⟩ := denotes_eval_iff
    (e := .minus (.inner (.full ⟨[], ⟨"base", by decide⟩⟩))
      (.minus (.intconstant ['7'] (by decide)))) rfl none fun _ ↦ 5
  exact ⟨text, htext, hdenotes.mpr (by decide)⟩

/-- The lexer takes `4294967296`, and `0` is written. -/
theorem not_denotes_eval :
    let e := SimpleExpression.inner (.int (.intconstant "4294967296".toList (by decide)))
    e.parse = some ⟨.none, .const 0, []⟩ ∧
      generateExpression none ⟨.none, .const 0, []⟩ = .ok ['0'] ∧
        ∀ env, ¬ Denotes env ['0'] (e.eval env) := by
  have hconst : (IntConstant.intconstant "4294967296".toList (by decide)).iconst =
      some 4294967296 := by
    decide +kernel
  refine ⟨?_, rfl, ?_⟩
  · rw [SimpleExpression.parse, InnerExpression.parse, hconst]
    rfl
  intro env hdenotes
  have hzero : Denotes env ['0'] 0 := ⟨[.operand ['0']], rfl, .unary (.operand rfl)⟩
  have heq : 0 = (IntConstant.intconstant "4294967296".toList (by decide)).value :=
    hzero.unique hdenotes
  exact absurd heq (by decide +kernel)

end Cplus

/-! ## Small literals -/

def IntConstant.Fits (lit : IntConstant) : Prop := lit.value < 2 ^ 31

def InnerExpression.Fits : InnerExpression → Prop
  | .full _ => True
  | .plus lit | .minus lit | .int lit => lit.Fits

def SimpleExpression.Fits : SimpleExpression → Prop
  | .plus e i | .minus e i => e.Fits ∧ i.Fits
  | .inner i => i.Fits

theorem IntConstant.value_nonneg (lit : IntConstant) : 0 ≤ lit.value := by
  cases lit <;> exact Int.natCast_nonneg _

theorem InnerExpression.lost_eq_zero {i : InnerExpression} (h : i.Fits) : i.lost = 0 := by
  have hint : ∀ v : ℤ, -2 ^ 31 ≤ v → v < 2 ^ 31 → v - toInt v = 0 := by
    intro v hlow hhigh
    rw [toInt, Int.bmod_eq_of_le (by omega) (by omega), Int.sub_self]
  cases i with
  | full type => rfl
  | plus lit | int lit =>
      have hnonneg := lit.value_nonneg
      exact hint lit.value (by omega) h
  | minus lit =>
      have hnonneg := lit.value_nonneg
      have hlt : lit.value < 2 ^ 31 := h
      exact hint (-lit.value) (by omega) (by omega)

/-- Nothing is lost in an expression of small literals. -/
theorem SimpleExpression.lost_eq_zero {e : SimpleExpression} (h : e.Fits) : e.lost = 0 := by
  induction e with
  | plus e i ih => rw [lost, ih h.1, i.lost_eq_zero h.2, Int.add_zero]
  | minus e i ih => rw [lost, ih h.1, i.lost_eq_zero h.2, Int.sub_zero]
  | inner i => exact i.lost_eq_zero h

end WiseKernel.Idl
