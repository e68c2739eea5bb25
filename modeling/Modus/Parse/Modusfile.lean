import Modus.Parse.Ir

/-!
# Printing and parsing Modusfile clauses

`modusfile.rs` gives the surface syntax of a Modusfile: a clause is a head literal
and a body of expressions, an expression a literal or an operator applied to a
parenthesised list of expressions, `(e₁, e₂)::op`. `Display` prints a fact as
`head.` and a rule as `head :- e₁, e₂.`; the literals inside are printed by
`Display for Literal` of `logic.rs`, which prints a constant between double quotes
as it is. `FromStr` reads a clause back with the parsers of `modusfile::parser`.

A constant is read by `modus_const`: a double quote (or `f"`), then
`string_content`, which recognizes escaped double quotes `\"` and runs of other
characters and hands the text to `process_raw_string`, then a closing double quote.
`process_raw_string` undoes the escapes `\"`, `\\`, `\n`, `\r`, `\t`, `\0`, drops
an escaped line break with the whitespace after it, keeps any other escape as it
is, and panics on a backslash at the end of its input.

The literal parser `modusfile.rs` calls, `literal(modus_const, modus_var)`, takes
two parsers, where the `literal` of the `logic.rs` under src/ takes one term parser;
it is modelled as that `literal` with the term parser
`alt((map(modus_const, Constant), map(modus_var, UserVariable)))`, and its input, a
`&str` and not a span, gives no position (`None`). `modusfile`, which skips the
lines `dockerfile::parser::ignored_line` reads, is left out: that parser is not
under src/.

`From<&ModusClause> for logic::Clause` (`ModusClause.toClause`) converts a clause to
the IR by keeping the literals of its body and dropping the operators.

`expression` and `body` call each other; each call of `body` from `expression`
follows an opening parenthesis, so the nesting is bounded by the length of the
input, and `expression` is written with that bound as fuel.

## Main results

* `processRawString_escapeConst` — `process_raw_string` undoes the escaping
  `escapeConst` of every string.
* `modusConst_escapeConst` — `modus_const` reads back every escaped string whose
  double quotes all come first; `modusConst_escapeConst_panics` — on every other
  string it panics, since `is_not` takes the backslash of an escaped quote into a
  run of other characters.
* `processRawString_eq_error` — `process_raw_string` panics exactly on a string
  ending in an odd number of backslashes; `modusConst_plain` — on a constant with no
  double quote inside, other than a lone backslash, `modus_const` returns what
  `process_raw_string` makes of it.
* `ModusClause.fromStr_display` — the round trip for clauses whose names are
  identifiers and whose constants have no double quote and no backslash, at any
  nesting of operators.
* `ModusClause.fromStr_reprints` — conversely, every clause the parser reads prints and
  reads back as itself, when its constants have no double quote and no backslash.
* `ModusClause.toClause_fromStr_display` — a clause read back from its Modusfile text
  converts to an IR clause whose IR text reads back as the clause's conversion.
* `ModusClause.fromStr_displayCommented` — a rule written with whitespace and comment
  lines before each expression of its body reads back as itself;
  `ModusClause.fromStr_comment_unindented` — a comment line after `:-` followed at
  once by anything but whitespace makes the clause fail with a `Failure`.
-/

namespace Modus.Modusfile

open Modus.Logic Modus.Nom

/-! ## Surface syntax -/

/-- `Expression`: a literal, or an operator applied to a list of expressions. -/
inductive Expression where
  | literal (l : Literal)
  | operatorApplication (exprs : List Expression) (op : Literal)
  deriving Repr

/-- `ModusClause`: a head and a body of expressions; a fact has an empty body. -/
structure ModusClause where
  head : Literal
  body : List Expression
  deriving Repr

/-! ## The IR clause of a Modusfile clause -/

mutual

/-- `get_literals`: the literals of an expression, left to right; operators are
ignored. -/
def Expression.getLiterals : Expression → List Literal
  | .literal l => [l]
  | .operatorApplication exprs _ => Expression.getLiteralsList exprs

/-- `flat_map(get_literals)` over a list of expressions. -/
def Expression.getLiteralsList : List Expression → List Literal
  | [] => []
  | e :: es => e.getLiterals ++ Expression.getLiteralsList es

end

/-- `From<&ModusClause> for logic::Clause`: the head, and the literals of the body
with the operators left out. -/
def ModusClause.toClause (c : ModusClause) : Clause := ⟨c.head, Expression.getLiteralsList c.body⟩

/-! ## Printing -/

mutual

/-- `Display for Expression`: a literal as `Display for Literal` prints it, an
operator application as `(e₁, e₂)::op`. -/
def Expression.display : Expression → Except String (List Char)
  | .literal l => l.display
  | .operatorApplication exprs op => do
      let ss ← Expression.displayList exprs
      let o ← op.display
      pure ('(' :: (displaySep ", ".data ss ++ ")::".data ++ o))

/-- The expressions of a list, each printed. -/
def Expression.displayList : List Expression → Except String (List (List Char))
  | [] => pure []
  | e :: es => do
      let s ← e.display
      let ss ← Expression.displayList es
      pure (s :: ss)

end

/-- `Display for ModusClause`: `head.` for a fact, `head :- e₁, e₂.` for a rule. -/
def ModusClause.display (c : ModusClause) : Except String (List Char) := do
  let head ← c.head.display
  match c.body with
  | [] => pure (head ++ ['.'])
  | body => do
      let ss ← Expression.displayList body
      pure (head ++ " :- ".data ++ displaySep ", ".data ss ++ ['.'])

/-! ## Constants -/

/-- Unicode's `White_Space` characters past ASCII, as Rust's tables list them. -/
def whiteSpace (c : Char) : Bool :=
  [0x85, 0xa0, 0x1680, 0x2028, 0x2029, 0x202f, 0x205f, 0x3000].contains c.toNat ||
    (0x2000 ≤ c.toNat && c.toNat ≤ 0x200a)

/-- Rust's `char::is_whitespace`: a space, `\t` to `\r`, and past ASCII the Unicode
`White_Space` characters. -/
def isWhitespace (c : Char) : Bool :=
  c == ' ' || (0x9 ≤ c.toNat && c.toNat ≤ 0xd) || (0x7f < c.toNat && whiteSpace c)

/-- What an escape `\d` stands for, other than an escaped line break: the escapes
`process_raw_string` knows, and any other escape as it is. -/
def escaped : Char → List Char
  | '"' => ['"']
  | '\\' => ['\\']
  | 'n' => ['\n']
  | 'r' => ['\r']
  | 't' => ['\t']
  | '0' => ['\x00']
  | d => ['\\', d]

/-- The loop of `process_raw_string`. `skipping` is set after an escaped line break,
while the whitespace after it is dropped. -/
def processLoop : Bool → List Char → Except Err (List Char)
  | _, [] => .ok []
  | skipping, c :: cs =>
      if skipping && isWhitespace c then processLoop true cs
      else if c = '\\' then
        match cs with
        | [] => .error (.panic "given string ends with an escape character")
        | d :: ds => if d = '\n' then processLoop true ds else (escaped d ++ ·) <$> processLoop false ds
      else (c :: ·) <$> processLoop false cs

/-- `process_raw_string`: the escapes of a constant's text undone. -/
def processRawString (s : List Char) : Except Err (List Char) := processLoop false s

namespace Parser

/-- `string_content`: escaped double quotes and runs of other characters, as
`recognize` gives them back, through `process_raw_string`. -/
def stringContent : Parser (List Char) := fun i =>
  match recognize (foldMany0 (alt (tag ['\\', '"']) (isNot ['"'])) [] (· ++ ·)) i with
  | .ok (a, b) => (processRawString b).map fun s => (a, s)
  | .error e => .error e

/-- `modus_const`: `"` or `f"`, the string content, and a closing `"`. -/
def modusConst : Parser (List Char) :=
  delimited (alt (tag ['"']) (tag ['f', '"'])) stringContent (cut (tag ['"']))

/-- `variable_identifier`. -/
def variableIdentifier : Parser (List Char) := Logic.Parser.literalIdentifier

/-- `modus_var`. -/
def modusVar : Parser (List Char) := variableIdentifier

/-- The term parser of `literal(modus_const, modus_var)`: a constant or a user
variable. -/
def term : Parser IRTerm :=
  alt (map modusConst fun s => .constant ⟨s⟩) (map modusVar fun s => .userVariable ⟨s⟩)

/-- `literal(modus_const, modus_var)`, without a position. -/
def literal : Parser Literal := Logic.Parser.literalAt term none

/-- `head`. -/
def head : Parser Literal := literal

/-! ## Clauses -/

/-- `comment`: `#` to the end of the line. -/
def comment : Parser (List Char) := delimited (tag ['#']) notLineEnding lineEnding

/-- Whitespace and comments, as `body` skips them before an expression. -/
def comments : Parser (List (List Char)) :=
  delimited multispace0 (separatedList0 multispace0 comment) multispace0

/-- `body`, given the parser of one expression: expressions separated by commas,
with comments between them. -/
def bodyWith (expression : Parser Expression) : Parser (List Expression) :=
  preceded comments (separatedList0 (delimited multispace0 (tag [',']) comments) expression)

/-- `expression`, for at most `fuel` levels of parentheses: a literal, or a
parenthesised body, `::` and an operator. -/
def expression : Nat → Parser Expression
  | 0 => fun _ => .error .error
  | fuel + 1 => alt (map literal .literal)
      (map (separatedPair (delimited (tag ['(']) (bodyWith (expression fuel)) (tag [')']))
          (tag [':', ':']) (cut literal))
        fun (exprs, operator) => .operatorApplication exprs operator)

/-- `body`. -/
def body : Parser (List Expression) := fun i => bodyWith (expression (i.length + 1)) i

/-- `fact`: a head and a full stop. -/
def fact : Parser ModusClause := map (terminated head (tag ['.'])) fun h => ⟨h, []⟩

/-- `rule`: a head, `:-`, and a body ending in a full stop; after `:-` nothing
recovers. -/
def rule : Parser ModusClause :=
  map (separatedPair head (delimited space0 (tag [':', '-']) multispace0)
      (cut (terminated body (tag ['.']))))
    fun (head, body) => ⟨head, body⟩

/-- `modus_clause`: a fact or a rule. The `context` label is left out with the
other error payloads. -/
def modusClause : Parser ModusClause := alt fact rule

end Parser

/-- `FromStr for ModusClause`: what `modus_clause` reads, the rest ignored. -/
def ModusClause.fromStr (s : String) : Except Err ModusClause :=
  (Parser.modusClause s.data).map Prod.snd

/-! ## Escapes -/

/-- The escape of one character that `process_raw_string` undoes: a backslash or a
double quote gets a backslash in front of it. -/
def escapeChar (c : Char) : List Char := if c = '\\' ∨ c = '"' then ['\\', c] else [c]

/-- A string escaped character by character. `Display` prints constants without
it. -/
def escapeConst (w : List Char) : List Char := w.flatMap escapeChar

@[simp] theorem escapeConst_nil : escapeConst [] = [] := rfl

@[simp] theorem escapeConst_cons (c : Char) (w : List Char) :
    escapeConst (c :: w) = escapeChar c ++ escapeConst w := List.flatMap_cons _ _ _

theorem escapeConst_append (v w : List Char) :
    escapeConst (v ++ w) = escapeConst v ++ escapeConst w := List.flatMap_append _ _ _

theorem processLoop_escapeChar (c : Char) (rest : List Char) :
    processLoop false (escapeChar c ++ rest) = (c :: ·) <$> processLoop false rest := by
  unfold escapeChar
  by_cases h₁ : c = '\\'
  · subst h₁; rfl
  · by_cases h₂ : c = '"'
    · subst h₂; rfl
    · simp only [h₁, h₂, or_self, if_false, List.singleton_append]
      rw [processLoop.eq_def]
      simp [h₁]

/-- `process_raw_string` undoes the escapes of an escaped string, whatever follows
it. -/
theorem processLoop_escapeConst_append (v rest : List Char) :
    processLoop false (escapeConst v ++ rest) = (v ++ ·) <$> processLoop false rest := by
  induction v with
  | nil => simp
  | cons c v ih =>
      rw [escapeConst_cons, List.append_assoc, processLoop_escapeChar, ih]
      simp [Function.comp_def]

/-- **`process_raw_string` undoes `escapeConst`.** -/
theorem processRawString_escapeConst (v : List Char) : processRawString (escapeConst v) = .ok v := by
  have h := processLoop_escapeConst_append v []
  rw [List.append_nil] at h
  rw [processRawString, h]
  simp [processLoop]

/-- The number of backslashes a text ends with. -/
def trailingBackslashes (s : List Char) : Nat := (s.reverse.takeWhile (· == '\\')).length

/-- Before a character other than a backslash, nothing counts. -/
theorem trailingBackslashes_append_cons {c : Char} (hc : c ≠ '\\') (u s : List Char) :
    trailingBackslashes (u ++ c :: s) = trailingBackslashes s := by
  unfold trailingBackslashes
  rw [List.reverse_append, List.reverse_cons, List.append_assoc, List.takeWhile_append]
  split
  · rename_i h
    rw [List.singleton_append, List.takeWhile_cons_of_neg (by simpa using hc), List.append_nil,
      List.length_reverse, ← List.length_reverse, h]
  · rfl

theorem trailingBackslashes_cons {c : Char} (hc : c ≠ '\\') (s : List Char) :
    trailingBackslashes (c :: s) = trailingBackslashes s :=
  trailingBackslashes_append_cons hc [] s

theorem trailingBackslashes_cons_cons (a : Char) {c : Char} (hc : c ≠ '\\') (s : List Char) :
    trailingBackslashes (a :: c :: s) = trailingBackslashes s :=
  trailingBackslashes_append_cons hc [a] s

/-- Two more backslashes at the end keep the parity. -/
theorem trailingBackslashes_two (s : List Char) :
    trailingBackslashes ('\\' :: '\\' :: s) % 2 = trailingBackslashes s % 2 := by
  unfold trailingBackslashes
  rw [show ('\\' :: '\\' :: s).reverse = s.reverse ++ ['\\', '\\'] by simp, List.takeWhile_append]
  split
  · rename_i h
    simp [h]
  · rfl

/-- The loop fails exactly on a text that ends with an odd number of backslashes, and
then with the panic on a trailing escape, whether or not it is skipping. -/
theorem processLoop_eq_error : ∀ (b : Bool) (s : List Char) (e : Err),
    processLoop b s = .error e ↔
      e = .panic "given string ends with an escape character" ∧ Odd (trailingBackslashes s)
  | _, [], e => by simp [processLoop, trailingBackslashes]
  | b, c :: cs, e => by
      rw [processLoop.eq_def]
      simp only
      by_cases hw : (b && isWhitespace c) = true
      · have hc : c ≠ '\\' := by
          rintro rfl; simp [isWhitespace, whiteSpace] at hw
        rw [if_pos hw, processLoop_eq_error true cs e,
          trailingBackslashes_cons hc cs]
      rw [if_neg hw]
      by_cases hc : c = '\\'
      · subst hc
        rw [if_pos rfl]
        cases cs with
        | nil => simp [trailingBackslashes, eq_comm]
        | cons d ds =>
            simp only
            by_cases hd : d = '\n'
            · rw [if_pos hd, processLoop_eq_error true ds e,
                trailingBackslashes_cons_cons _ (by rw [hd]; decide) ds]
            · rw [if_neg hd, map_eq_error, processLoop_eq_error false ds e]
              by_cases hdb : d = '\\'
              · subst hdb
                simp only [Nat.odd_iff, trailingBackslashes_two]
              · rw [trailingBackslashes_cons_cons _ hdb ds]
      · rw [if_neg hc, map_eq_error, processLoop_eq_error false cs e,
          trailingBackslashes_cons hc cs]

/-- **When `process_raw_string` panics.** It fails exactly on a text that ends with an
odd number of backslashes, and then with the panic on a trailing escape character. -/
theorem processRawString_eq_error (s : List Char) (e : Err) :
    processRawString s = .error e ↔
      e = .panic "given string ends with an escape character" ∧ Odd (trailingBackslashes s) :=
  processLoop_eq_error false s e

example : processRawString ['a', '\\', '\\', '\\'] =
    .error (.panic "given string ends with an escape character") := rfl

/-! ## Reading constants back -/

namespace Parser

theorem stringItem_consumes : Consumes (alt (tag ['\\', '"']) (isNot ['"'])) :=
  alt_consumes (tag_consumes _) (takeWhile1_consumes _)

theorem stringItem_quote (x : List Char) :
    alt (tag ['\\', '"']) (isNot ['"']) ('"' :: x) = .error .error := by
  rw [alt_error (tag_cons_error (by decide))]
  exact takeWhile1_error (by simp)

/-- The loop of `string_content` reads `k` escaped double quotes, then a run of other
characters that does not start as an escaped double quote, and stops at the double
quote after it. -/
theorem many0_stringItem {run x : List Char} (hrun : '"' ∉ run)
    (htag : tag ['\\', '"'] (run ++ '"' :: x) = .error .error) (k : Nat) :
    ∃ as, many0 (alt (tag ['\\', '"']) (isNot ['"']))
      (escapeConst (List.replicate k '"') ++ run ++ '"' :: x) = .ok ('"' :: x, as) := by
  induction k with
  | zero =>
      by_cases hne : run = []
      · subst hne
        exact ⟨[], many0_error (stringItem_quote x)⟩
      · have hstep : alt (tag ['\\', '"']) (isNot ['"']) (run ++ '"' :: x) = .ok ('"' :: x, run) := by
          rw [alt_error htag]
          exact takeWhile1_append hne (fun c hc => by simpa using ne_of_mem_of_not_mem hc hrun)
            (by simp)
        refine ⟨[run], ?_⟩
        rw [List.replicate_zero, escapeConst_nil, List.nil_append,
          many0_ok stringItem_consumes hstep (by simp [List.length_pos.mpr hne]),
          many0_error (stringItem_quote x)]
  | succ k ih =>
      obtain ⟨as, has⟩ := ih
      have htext : escapeConst (List.replicate (k + 1) '"') ++ run ++ '"' :: x =
          ['\\', '"'] ++ (escapeConst (List.replicate k '"') ++ run ++ '"' :: x) := by
        simp [List.replicate_succ, escapeChar]
      rw [htext, many0_ok stringItem_consumes (alt_ok (tag_append _ _)) (by simp; omega), has]
      exact ⟨_, rfl⟩

/-- `string_content` on `k` escaped double quotes and a run of other characters
hands both to `process_raw_string`, and leaves the double quote after them. -/
theorem stringContent_escaped {run x : List Char} (hrun : '"' ∉ run)
    (htag : tag ['\\', '"'] (run ++ '"' :: x) = .error .error) (k : Nat) :
    stringContent (escapeConst (List.replicate k '"') ++ run ++ '"' :: x) =
      (processRawString (escapeConst (List.replicate k '"') ++ run)).map fun s => ('"' :: x, s) := by
  obtain ⟨as, has⟩ := many0_stringItem hrun htag k
  unfold stringContent foldMany0
  rw [recognize_append (map_ok has _)]

theorem quote_mem_escapeChar {c : Char} : '"' ∈ escapeChar c ↔ c = '"' := by
  unfold escapeChar; split <;> simp [eq_comm]

theorem quote_not_mem_escapeConst {v : List Char} (hv : '"' ∉ v) : '"' ∉ escapeConst v := by
  simpa [escapeConst, List.mem_flatMap, quote_mem_escapeChar] using hv

/-- An escaped string without double quotes does not start as an escaped double
quote: its first character is not a backslash, or a backslash doubled. -/
theorem tag_escapeConst_error {v : List Char} (hne : v ≠ []) (hv : '"' ∉ v) (y : List Char) :
    tag ['\\', '"'] (escapeConst v ++ y) = .error .error := by
  obtain ⟨c, v, rfl⟩ := List.exists_cons_of_ne_nil hne
  have hc : c ≠ '"' := fun h => hv (h ▸ List.mem_cons_self _ _)
  by_cases hb : c = '\\'
  · subst hb
    exact tag_error (by simp [escapeChar])
  · simp only [escapeConst_cons, escapeChar, hb, hc, or_self, if_false, List.singleton_append,
      List.cons_append]
    exact tag_cons_error (Ne.symm hb)

/-- **`modus_const` reads back an escaped string whose double quotes all come
first.** -/
theorem modusConst_escapeConst (k : Nat) {v : List Char} (x : List Char) (hv : '"' ∉ v) :
    modusConst ('"' :: (escapeConst (List.replicate k '"' ++ v) ++ '"' :: x)) =
      .ok (x, List.replicate k '"' ++ v) := by
  have htag : tag ['\\', '"'] (escapeConst v ++ '"' :: x) = .error .error := by
    by_cases hne : v = []
    · subst hne; exact tag_cons_error (by decide)
    · exact tag_escapeConst_error hne hv _
  have hsc := stringContent_escaped (quote_not_mem_escapeConst hv) htag k
  rw [← escapeConst_append, processRawString_escapeConst] at hsc
  exact delimited_ok (alt_ok (tag_append ['"'] _)) hsc (cut_ok (tag_append ['"'] x))

/-- **`modus_const` panics on every other escaped string.** Where a double quote
follows another character, `is_not` reads the backslash of its escape into the run
before it, and `process_raw_string` gets a text that ends in that backslash. -/
theorem modusConst_escapeConst_panics (k : Nat) {v : List Char} (u x : List Char) (hne : v ≠ [])
    (hv : '"' ∉ v) :
    modusConst ('"' :: (escapeConst (List.replicate k '"' ++ v ++ '"' :: u) ++ '"' :: x)) =
      .error (.panic "given string ends with an escape character") := by
  have hrun : '"' ∉ escapeConst v ++ ['\\'] := by
    simpa using quote_not_mem_escapeConst hv
  have htag : tag ['\\', '"'] (escapeConst v ++ ['\\'] ++ '"' :: (escapeConst u ++ '"' :: x)) =
      .error .error := by
    rw [List.append_assoc]; exact tag_escapeConst_error hne hv _
  have hsc := stringContent_escaped hrun htag k
  have hproc : processRawString (escapeConst (List.replicate k '"') ++ (escapeConst v ++ ['\\'])) =
      .error (.panic "given string ends with an escape character") := by
    rw [← List.append_assoc, ← escapeConst_append, processRawString,
      processLoop_escapeConst_append]
    rfl
  have htext : escapeConst (List.replicate k '"' ++ v ++ '"' :: u) ++ '"' :: x =
      escapeConst (List.replicate k '"') ++ (escapeConst v ++ ['\\']) ++
        '"' :: (escapeConst u ++ '"' :: x) := by
    simp [escapeConst_append, escapeChar]
  rw [hproc] at hsc
  rw [htext]
  exact delimited_error_mid (alt_ok (tag_append ['"'] _)) hsc

/-- The string `a"`, escaped as `a\"`, does not read back: `modus_const` panics. -/
theorem modusConst_escaped_quote_panics :
    escapeConst ['a', '"'] = ['a', '\\', '"'] ∧
      modusConst ('"' :: (escapeConst ['a', '"'] ++ ['"'])) =
        .error (.panic "given string ends with an escape character") :=
  ⟨rfl, modusConst_escapeConst_panics 0 [] [] (v := ['a']) (List.cons_ne_nil _ _) (by decide)⟩

/-- An escaped double quote after another character makes `modus_const` panic, and
with it `FromStr for ModusClause`. -/
theorem modusClause_fromStr_panics :
    modusConst ['"', 'a', '\\', '"', '"'] =
        .error (.panic "given string ends with an escape character") ∧
      ModusClause.fromStr ⟨['p', '(', '"', 'a', '\\', '"', '"', ')', '.']⟩ =
        .error (.panic "given string ends with an escape character") :=
  ⟨rfl, rfl⟩

example : modusConst ['"', 'a', '\\', 'n', '"'] = .ok ([], ['a', '\n']) := rfl

/-- Text without a double quote, followed by one, starts as an escaped double quote
only when it is a lone backslash. -/
theorem tag_escapedQuote_error {w : List Char} (hw : '"' ∉ w) (hb : w ≠ ['\\']) (x : List Char) :
    tag ['\\', '"'] (w ++ '"' :: x) = .error .error := by
  refine tag_error fun ⟨u, hu⟩ => ?_
  match w, hu with
  | [], hu => simp at hu
  | [c], hu => simp only [List.cons_append, List.nil_append, List.cons.injEq] at hu; exact hb (by rw [← hu.1])
  | c :: d :: w', hu =>
      simp only [List.cons_append, List.nil_append, List.cons.injEq] at hu
      exact hw (hu.2.1 ▸ List.mem_cons_of_mem _ (List.mem_cons_self _ _))

/-- A constant whose text has no double quote is that text through
`process_raw_string`, unless the text is a lone backslash. -/
theorem modusConst_plain {w : List Char} (hw : '"' ∉ w) (hb : w ≠ ['\\']) (x : List Char) :
    modusConst ('"' :: (w ++ '"' :: x)) = (processRawString w).map fun s => (x, s) := by
  have hsc := stringContent_escaped hw (tag_escapedQuote_error hw hb x) 0
  simp only [List.replicate_zero, escapeConst_nil, List.nil_append] at hsc
  cases hp : processRawString w with
  | error e =>
      rw [hp] at hsc
      exact delimited_error_mid (alt_ok (tag_append ['"'] _)) hsc
  | ok s =>
      rw [hp] at hsc
      exact delimited_ok (alt_ok (tag_append ['"'] _)) hsc (cut_ok (tag_append ['"'] x))

/-- The text `a\\` reads as `a\`. -/
theorem modusConst_plain_backslashes :
    modusConst ['"', 'a', '\\', '\\', '"'] = .ok ([], ['a', '\\']) := by
  rw [show ['"', 'a', '\\', '\\', '"'] = '"' :: (['a', '\\', '\\'] ++ '"' :: []) from rfl,
    modusConst_plain (by decide) (by decide) []]
  rfl

end Parser

/-! ## The round trip -/

/-- A term whose printed text a Modusfile reads back as itself: a user variable named
by an identifier, or a constant with no double quote and no backslash. -/
def termReparses : IRTerm → Bool
  | .constant s => !s.data.contains '"' && !s.data.contains '\\'
  | .userVariable s => isIdentifier s.data
  | _ => false

/-- A literal whose printed text a Modusfile reads back as itself. -/
def literalReparses (l : Literal) : Bool :=
  isIdentifier l.predicate.data && l.args.all termReparses

mutual

/-- An expression whose printed text a Modusfile reads back as itself. -/
def Expression.reparses : Expression → Bool
  | .literal l => literalReparses l
  | .operatorApplication exprs op => Expression.reparsesList exprs && literalReparses op

/-- Expressions each of which reads back. -/
def Expression.reparsesList : List Expression → Bool
  | [] => true
  | e :: es => e.reparses && Expression.reparsesList es

end

/-- A clause whose printed text a Modusfile reads back as itself. -/
def ModusClause.reparses (c : ModusClause) : Bool :=
  literalReparses c.head && Expression.reparsesList c.body

/-- A literal without its position. -/
def eraseLiteral (l : Literal) : Literal := { l with position := none }

mutual

/-- An expression without the positions of its literals. -/
def Expression.erase : Expression → Expression
  | .literal l => .literal (eraseLiteral l)
  | .operatorApplication exprs op => .operatorApplication (Expression.eraseList exprs) (eraseLiteral op)

/-- Expressions each without its positions. -/
def Expression.eraseList : List Expression → List Expression
  | [] => []
  | e :: es => e.erase :: Expression.eraseList es

end

/-- A clause without the positions of its literals. -/
def ModusClause.erase (c : ModusClause) : ModusClause :=
  ⟨eraseLiteral c.head, Expression.eraseList c.body⟩

theorem Expression.eraseList_eq_map : ∀ es : List Expression, Expression.eraseList es = es.map Expression.erase
  | [] => rfl
  | e :: es => by rw [Expression.eraseList, Expression.eraseList_eq_map es, List.map_cons]

theorem Expression.reparsesList_iff :
    ∀ {es : List Expression}, Expression.reparsesList es = true ↔ ∀ e ∈ es, e.reparses = true
  | [] => by simp [Expression.reparsesList]
  | e :: es => by simp [Expression.reparsesList, Expression.reparsesList_iff]

theorem Expression.displayList_forall₂ :
    ∀ {es : List Expression} {ss : List (List Char)}, Expression.displayList es = .ok ss →
      List.Forall₂ (fun e s => e.display = .ok s) es ss
  | [], ss, h => by cases h; exact .nil
  | e :: es, ss, h => by
      obtain ⟨s, hs, h⟩ := bind_eq_ok.mp h
      obtain ⟨ss', hss, h⟩ := bind_eq_ok.mp h
      cases h
      exact .cons hs (Expression.displayList_forall₂ hss)

theorem termReparses_display_ok {t : IRTerm} (ht : termReparses t = true) :
    ∃ s, t.display = .ok s := by
  cases t <;> first | exact ⟨_, rfl⟩ | cases ht

theorem literalReparses_display_ok {l : Literal} (hl : literalReparses l = true) :
    ∃ s, l.display = .ok s := by
  simp only [literalReparses, Bool.and_eq_true, List.all_eq_true] at hl
  exact Literal.display_ok fun t ht => termReparses_display_ok (hl.2 t ht)

mutual

theorem Expression.display_ok : ∀ {e : Expression}, e.reparses = true → ∃ s, e.display = .ok s
  | .literal _, h => literalReparses_display_ok h
  | .operatorApplication _ _, h => by
      simp only [Expression.reparses, Bool.and_eq_true] at h
      obtain ⟨ss, hss⟩ := Expression.displayList_ok h.1
      obtain ⟨o, ho⟩ := literalReparses_display_ok h.2
      exact ⟨_, by simp only [Expression.display, hss, ho]; rfl⟩

theorem Expression.displayList_ok :
    ∀ {es : List Expression}, Expression.reparsesList es = true → ∃ ss, Expression.displayList es = .ok ss
  | [], _ => ⟨[], rfl⟩
  | _ :: _, h => by
      simp only [Expression.reparsesList, Bool.and_eq_true] at h
      obtain ⟨s, hs⟩ := Expression.display_ok h.1
      obtain ⟨ss, hss⟩ := Expression.displayList_ok h.2
      exact ⟨s :: ss, by simp only [Expression.displayList, hs, hss]; rfl⟩

end

theorem escapeConst_of_plain : ∀ {w : List Char}, '"' ∉ w → '\\' ∉ w → escapeConst w = w
  | [], _, _ => rfl
  | c :: w, h₁, h₂ => by
      have hc : ¬(c = '\\' ∨ c = '"') := by rintro (rfl | rfl) <;> simp_all
      rw [escapeConst_cons, escapeChar, if_neg hc,
        escapeConst_of_plain (fun h => h₁ (.tail _ h)) (fun h => h₂ (.tail _ h))]
      rfl

/-- What `body` may meet after whitespace and comments: an expression, which starts
with a parenthesis or a letter, or the closing parenthesis or full stop after the
last one. -/
def StartsItem (i : List Char) : Prop :=
  ∀ c ∈ i.head?, c = '(' ∨ c = ')' ∨ c = '.' ∨ c.isAlpha = true

/-- A printed expression starts with a parenthesis or a letter. -/
theorem Expression.display_startsItem {e : Expression} {s : List Char} (he : e.reparses = true)
    (hs : e.display = .ok s) (x : List Char) : StartsItem (s ++ x) := by
  cases e with
  | literal l =>
      simp only [Expression.reparses, literalReparses, Bool.and_eq_true] at he
      obtain ⟨c, cs, hw, hc, -⟩ := isIdentifier_iff.mp he.1
      rcases Literal.display_eq_ok hs with ⟨-, rfl⟩ | ⟨-, -, -, -, -, rfl⟩ <;> rw [hw] <;>
        exact fun _ hd => by cases hd; exact .inr (.inr (.inr hc))
  | operatorApplication exprs op =>
      obtain ⟨ss, -, h⟩ := bind_eq_ok.mp hs
      obtain ⟨o, -, h⟩ := bind_eq_ok.mp h
      cases h
      exact fun _ hd => by cases hd; exact .inl rfl

/-- Lists of pairs related by `R`, whose right sides all satisfy `p`. -/
theorem forall₂_and_right {α β : Type} {R : α → β → Prop} {p : β → Prop} :
    ∀ {l : List α} {u : List β}, List.Forall₂ R l u → (∀ b ∈ u, p b) →
      List.Forall₂ (fun a b => R a b ∧ p b) l u
  | _, _, .nil, _ => .nil
  | _, _, .cons h hs, hp =>
      .cons ⟨h, hp _ (List.mem_cons_self _ _)⟩
        (forall₂_and_right hs fun b hb => hp b (List.mem_cons_of_mem _ hb))

namespace Parser

theorem startsItem_head {c : Char} (h : c = '(' ∨ c = ')' ∨ c = '.' ∨ c.isAlpha = true) :
    isMultispace c = false ∧ c ≠ '#' := by
  rcases h with rfl | rfl | rfl | h
  · exact ⟨rfl, by decide⟩
  · exact ⟨rfl, by decide⟩
  · exact ⟨rfl, by decide⟩
  · refine ⟨?_, by rintro rfl; exact absurd h (by decide)⟩
    simp only [isMultispace, Bool.or_eq_false_iff, beq_eq_false_iff_ne, ne_eq]
    refine ⟨⟨⟨?_, ?_⟩, ?_⟩, ?_⟩ <;> rintro rfl <;> exact absurd h (by decide)

theorem stringContent_consumes : Consumes stringContent := by
  intro i r a h
  unfold stringContent at h
  split at h
  · rename_i a' b hrec
    cases hp : processRawString b <;> rw [hp] at h <;> cases h
    exact recognize_consumes (map_consumes (many0_consumes stringItem_consumes) _) _ _ _ hrec
  · cases h

theorem term_consumes : Consumes term :=
  alt_consumes (map_consumes (delimited_consumes (alt_consumes (tag_consumes _) (tag_consumes _))
    stringContent_consumes (cut_consumes (tag_consumes _))) _)
    (map_consumes Logic.Parser.literalIdentifier_consumes _)

theorem literal_consumes : Consumes literal := Logic.Parser.literalAt_consumes term_consumes none

theorem comments_consumes : Consumes comments :=
  delimited_consumes (takeWhile0_consumes _) (separatedList0_consumes
    (delimited_consumes (tag_consumes _) notLineEnding_consumes lineEnding_consumes)
    (takeWhile0_consumes _)) (takeWhile0_consumes _)

theorem bodySep_consumes : Consumes (delimited multispace0 (tag [',']) comments) :=
  delimited_consumes (takeWhile0_consumes _) (tag_consumes _) comments_consumes

theorem bodyWith_consumes {p : Parser Expression} (hp : Consumes p) : Consumes (bodyWith p) :=
  preceded_consumes comments_consumes (separatedList0_consumes hp bodySep_consumes)

theorem expression_consumes : ∀ fuel, Consumes (expression fuel)
  | 0 => fun _ _ _ h => by cases h
  | fuel + 1 => alt_consumes (map_consumes literal_consumes _)
      (map_consumes (separatedPair_consumes (delimited_consumes (tag_consumes _)
        (bodyWith_consumes (expression_consumes fuel)) (tag_consumes _)) (tag_consumes _)
        (cut_consumes literal_consumes)) _)

/-- `body` skips no whitespace and no comment before an expression, a closing
parenthesis or a full stop, after the blanks `b`. -/
theorem comments_append {b i : List Char} (hb : ∀ c ∈ b, isMultispace c = true)
    (hi : StartsItem i) : comments (b ++ i) = .ok (i, []) :=
  delimited_ok (takeWhile0_append hb fun c hc => (startsItem_head (hi c hc)).1)
    (separatedList0_error (delimited_error_left (tag_error fun ⟨u, hu⟩ =>
      (startsItem_head (hi '#' (by rw [← hu]; rfl))).2 rfl)))
    (takeWhile0_of_stop fun c hc => (startsItem_head (hi c hc)).1)

theorem comments_start {i : List Char} (hi : StartsItem i) : comments i = .ok (i, []) :=
  comments_append (b := []) (fun _ h => by cases h) hi

/-- The separator of `body` reads the `", "` the printer puts between expressions. -/
theorem bodySep_comma {y : List Char} (hy : StartsItem y) :
    delimited multispace0 (tag [',']) comments (", ".data ++ y) = .ok (y, [',']) :=
  delimited_ok (takeWhile0_of_stop fun _ hc => by cases hc; rfl) (tag_append [','] _)
    (comments_append (b := [' ']) (by simp [isMultispace]) hy)

theorem bodySep_error {y : List Char} (hy : ∀ c ∈ y.head?, c = ')' ∨ c = '.') :
    delimited multispace0 (tag [',']) comments y = .error .error :=
  delimited_error_mid
    (takeWhile0_of_stop fun c hc => (startsItem_head (by rcases hy c hc with h | h <;> simp [h])).1)
    (tag_error fun ⟨u, hu⟩ => by
      rcases hy ',' (by rw [← hu]; rfl) with h | h <;> exact absurd h (by decide))

/-- A name followed by what follows a term does not start as `"` or `f"`. -/
theorem constOpen_error {w x : List Char} (hw : isIdentifier w = true) (hx : EndsTerm x) :
    alt (tag ['"']) (tag ['f', '"']) (w ++ x) = .error .error := by
  obtain ⟨c, cs, rfl, hc, hcs⟩ := isIdentifier_iff.mp hw
  have hq : '"' ≠ c := by rintro rfl; exact absurd hc (by decide)
  rw [List.cons_append, alt_error (tag_cons_error hq)]
  refine tag_error fun ⟨u, hu⟩ => ?_
  simp only [List.cons_append, List.nil_append, List.cons.injEq] at hu
  cases cs with
  | nil =>
      rcases hx '"' (by rw [List.nil_append] at hu; rw [← hu.2]; rfl) with h | h <;>
        exact absurd h (by decide)
  | cons d ds =>
      simp only [List.cons_append, List.cons.injEq] at hu
      exact absurd (hcs d (List.mem_cons_self _ _)) (by rw [← hu.2.1]; decide)

/-- A term reads back from its printed text, before a comma or the closing
parenthesis. -/
theorem term_display_append {t : IRTerm} {s x : List Char} (ht : termReparses t = true)
    (hs : t.display = .ok s) (hx : EndsTerm x) : term (s ++ x) = .ok (x, t) := by
  cases t with
  | constant w =>
      cases hs
      simp [termReparses] at ht
      have h := modusConst_escapeConst 0 x ht.1
      rw [List.replicate_zero, List.nil_append, escapeConst_of_plain ht.1 ht.2] at h
      rw [show '"' :: (w.data ++ ['"']) ++ x = '"' :: (w.data ++ '"' :: x) by simp]
      exact alt_ok (map_ok h _)
  | userVariable w =>
      cases hs
      have hcon : modusConst (w.data ++ x) = .error .error :=
        delimited_error_left (constOpen_error ht hx)
      rw [term, alt_error (map_error hcon _)]
      exact map_ok (Logic.Parser.literalIdentifier_append ht hx.endsName) _
  | auxiliaryVariable | renamedVariable => cases ht

/-- A literal reads back from its printed text, without its position. -/
theorem literal_display_append {l : Literal} {s r : List Char} (hl : literalReparses l = true)
    (hs : l.display = .ok s) (hr : EndsLiteral r) : literal (s ++ r) = .ok (r, eraseLiteral l) := by
  simp only [literalReparses, Bool.and_eq_true, List.all_eq_true] at hl
  exact Logic.Parser.literalAt_display_append term_consumes (fun _ _ _ => term_display_append)
    (fun _ _ x ht hs => IRTerm.display_startsUnblank (fun _ hw => by subst hw; exact ht) hs x)
    hl.1 hl.2 hs hr none

/-- No literal starts with a character other than a letter. -/
theorem literal_error {r : List Char} (hr : ∀ c ∈ r.head?, c.isAlpha = false) :
    literal r = .error .error := by
  refine map_error (pair_error_left ?_) _
  rw [Logic.Parser.literalIdentifier_eq]
  cases r with
  | nil => rfl
  | cons c r => simp [Translate.literalIdentifier, hr c rfl]

/-- No expression starts at a closing parenthesis or a full stop. -/
theorem expression_close {r : List Char} (hr : ∀ c ∈ r.head?, c = ')' ∨ c = '.') :
    ∀ fuel, expression fuel r = .error .error
  | 0 => rfl
  | _ + 1 => by
      have hlit := literal_error fun c hc => by rcases hr c hc with rfl | rfl <;> rfl
      have hopen : tag ['('] r = .error .error := tag_error fun ⟨u, hu⟩ => by
        rcases hr '(' (by rw [← hu]; rfl) with h | h <;> exact absurd h (by decide)
      rw [expression, alt_error (map_error hlit _)]
      exact map_error (pair_error_left (delimited_error_left hopen)) _

theorem endsLiteral_of_close {r : List Char} (hr : ∀ c ∈ r.head?, c = ')' ∨ c = '.') :
    EndsLiteral r :=
  ⟨fun c hc => by rcases hr c hc with rfl | rfl <;> rfl,
    fun c hc => by rcases hr c hc with rfl | rfl <;> decide⟩

section Body

variable {p : Parser Expression} (hp : Consumes p)
include hp

/-- `body` reads back expressions printed with `", "` between them, when `p` reads
back the text of each, and stops at the closing parenthesis or full stop after
them. -/
theorem bodyWith_display {exprs : List Expression} {ss : List (List Char)} {r : List Char}
    (hitem : ∀ (e : Expression) (s x : List Char), e.reparses = true → e.display = .ok s → s ∈ ss →
      EndsLiteral x → p (s ++ x) = .ok (x, e.erase))
    (hnil : p r = .error .error) (hexprs : Expression.reparsesList exprs = true)
    (hss : Expression.displayList exprs = .ok ss) (hr : ∀ c ∈ r.head?, c = ')' ∨ c = '.') :
    bodyWith p (displaySep ", ".data ss ++ r) = .ok (r, exprs.map Expression.erase) := by
  have hrel := forall₂_and_right ((List.forall₂_and_left _ _).mpr
    ⟨Expression.reparsesList_iff.mp hexprs, Expression.displayList_forall₂ hss⟩) fun _ h => h
  obtain _ | @⟨e, s, es, ss', he, hes⟩ := hrel
  · exact preceded_ok (comments_start fun c hc => by rcases hr c hc with h | h <;> simp [h])
      (separatedList0_error hnil)
  · have htext : displaySep ", ".data (s :: ss') ++ r = s ++ joinedTail ss' r := by
      simp [displaySep, joinedTail]
    obtain ⟨as, has, hR⟩ := separatedList0_joined hp bodySep_consumes
      (fun _ _ _ h => ⟨_, bodySep_comma (Expression.display_startsItem h.1.1 h.1.2 _)⟩)
      (bodySep_error hr) (fun e s x h hx => ⟨_, hitem e s x h.1.1 h.1.2 h.2 hx, rfl⟩)
      (fun _ => ⟨fun _ hc => by cases hc; rfl, fun _ hc => by cases hc; decide⟩)
      (endsLiteral_of_close hr) he hes
    have hmap := List.forall₂_map_left_iff.mpr hR
    rw [List.forall₂_eq_eq_eq] at hmap
    rw [htext, hmap]
    exact preceded_ok (comments_start (Expression.display_startsItem he.1.1 he.1.2 _)) has

end Body

/-- **An expression reads back from its printed text**, before whatever may follow a
literal, with the positions of its literals erased, when the fuel exceeds the
length of the text. -/
theorem expression_display_append :
    ∀ (fuel : Nat) {e : Expression} {s r : List Char}, e.reparses = true → e.display = .ok s →
      EndsLiteral r → s.length < fuel → expression fuel (s ++ r) = .ok (r, e.erase)
  | 0, _, _, _, _, _, _, h => absurd h (Nat.not_lt_zero _)
  | _ + 1, .literal _, _, _, he, hs, hr, _ => alt_ok (map_ok (literal_display_append he hs hr) _)
  | fuel + 1, .operatorApplication exprs op, s, r, he, hs, hr, hlen => by
      simp only [Expression.reparses, Bool.and_eq_true] at he
      obtain ⟨ss, hss, h⟩ := bind_eq_ok.mp hs
      obtain ⟨o, ho, h⟩ := bind_eq_ok.mp h
      cases h
      have hsub : ∀ s' ∈ ss, s'.length < fuel := fun s' hs' => by
        have := (sublist_displaySep hs' : List.Sublist s' (displaySep ", ".data ss)).length_le
        rw [List.length_cons, List.length_append, List.length_append] at hlen
        omega
      have hbody := bodyWith_display (expression_consumes fuel)
        (fun e s x he hs hmem hx => expression_display_append fuel he hs hx (hsub s hmem))
        (expression_close (fun _ hc => by cases hc; exact .inl rfl) fuel) he.1 hss
        (r := ")::".data ++ (o ++ r)) (fun _ hc => by cases hc; exact .inl rfl)
      rw [show '(' :: (displaySep ", ".data ss ++ ")::".data ++ o) ++ r =
          '(' :: (displaySep ", ".data ss ++ (")::".data ++ (o ++ r))) by simp,
        expression, alt_error (map_error (literal_error fun _ hc => by cases hc; rfl) _),
        Expression.erase, Expression.eraseList_eq_map]
      exact map_ok (separatedPair_ok (delimited_ok (tag_append ['('] _) hbody
        (tag_append [')'] _)) (tag_append [':', ':'] _)
        (cut_ok (literal_display_append he.2 ho hr))) _

/-- `modus_clause` reads a printed clause back, with the positions of its literals
erased: a fact as a head and a full stop, a rule through `:-` and its body. -/
theorem modusClause_display {c : ModusClause} {s : List Char} (hc : c.reparses = true)
    (hs : c.display = .ok s) : modusClause s = .ok ([], c.erase) := by
  simp only [ModusClause.reparses, Bool.and_eq_true] at hc
  obtain ⟨h, hh, hs⟩ := bind_eq_ok.mp hs
  obtain ⟨head, _ | ⟨e, es⟩⟩ := c
  · cases hs
    exact alt_ok (map_ok (terminated_ok (literal_display_append hc.1 hh
      (endsLiteral_of_close fun _ hc => by cases hc; exact .inr rfl)) (tag_append ['.'] [])) _)
  · obtain ⟨ss, hss, hs⟩ := bind_eq_ok.mp hs
    cases hs
    obtain _ | @⟨_, s₁, _, ss', hs₁, -⟩ := Expression.displayList_forall₂ hss
    have hstart := Expression.display_startsItem
      (Expression.reparsesList_iff.mp hc.2 e (List.mem_cons_self _ _)) hs₁
      (joinedTail ss' ['.'])
    have htext : displaySep ", ".data (s₁ :: ss') ++ ['.'] = s₁ ++ joinedTail ss' ['.'] := by
      simp [displaySep, joinedTail]
    have hhead := literal_display_append hc.1 hh
      (r := " :- ".data ++ (displaySep ", ".data (s₁ :: ss') ++ ['.']))
      ⟨fun _ hc => by cases hc; rfl, fun _ hc => by cases hc; decide⟩
    have hneck : delimited space0 (tag [':', '-']) multispace0
        (" :- ".data ++ (displaySep ", ".data (s₁ :: ss') ++ ['.'])) =
          .ok (displaySep ", ".data (s₁ :: ss') ++ ['.'], [':', '-']) := by
      rw [htext]
      exact delimited_ok (takeWhile0_append (w := [' ']) (by simp [isBlank])
        fun _ hc => by cases hc; rfl) (tag_append [':', '-'] _)
        (takeWhile0_append (w := [' ']) (by simp [isMultispace])
          fun c hc => (startsItem_head (hstart c hc)).1)
    have hbody : body (displaySep ", ".data (s₁ :: ss') ++ ['.']) =
        .ok (['.'], (e :: es).map Expression.erase) :=
      bodyWith_display (expression_consumes _)
        (fun _ _ _ he hs hmem hx => expression_display_append _ he hs hx (by
          have := (sublist_displaySep hmem :
            List.Sublist _ (displaySep ", ".data (s₁ :: ss'))).length_le
          rw [List.length_append]
          omega))
        (expression_close (fun _ hc => by cases hc; exact .inr rfl) _) hc.2 hss
        (fun _ hc => by cases hc; exact .inr rfl)
    have hfact : fact (h ++ (" :- ".data ++ (displaySep ", ".data (s₁ :: ss') ++ ['.']))) =
        .error .error :=
      map_error (map_error (pair_error_right hhead (tag_cons_error (by decide))) _) _
    rw [show h ++ " :- ".data ++ displaySep ", ".data (s₁ :: ss') ++ ['.'] =
        h ++ (" :- ".data ++ (displaySep ", ".data (s₁ :: ss') ++ ['.'])) by simp,
      modusClause, alt_error hfact, ModusClause.erase, Expression.eraseList_eq_map]
    exact map_ok (separatedPair_ok hhead hneck (cut_ok (terminated_ok hbody
      (tag_append ['.'] [])))) _

end Parser

theorem ModusClause.display_ok {c : ModusClause} (hc : c.reparses = true) :
    ∃ s, c.display = .ok s := by
  obtain ⟨head, body⟩ := c
  simp only [ModusClause.reparses, Bool.and_eq_true] at hc
  obtain ⟨h, hh⟩ := literalReparses_display_ok hc.1
  obtain ⟨ss, hss⟩ := Expression.displayList_ok hc.2
  cases body
  · exact ⟨_, by simp only [ModusClause.display, hh]; rfl⟩
  · exact ⟨_, by simp only [ModusClause.display, hh, hss]; rfl⟩

/-- **The Modusfile round trip.** A clause whose names are identifiers and whose
constants have no double quote and no backslash prints, and reads back as itself
with the positions of its literals erased, at any nesting of operators. -/
theorem ModusClause.fromStr_display {c : ModusClause} (hc : c.reparses = true) :
    ∃ s, c.display = .ok s ∧ ModusClause.fromStr ⟨s⟩ = .ok c.erase := by
  obtain ⟨s, hs⟩ := ModusClause.display_ok hc
  exact ⟨s, hs, by rw [ModusClause.fromStr, Parser.modusClause_display hc hs]; rfl⟩

example : ModusClause.fromStr "l1 :- l2,\n\tl3." =
    .ok ⟨⟨none, "l1", []⟩, [.literal ⟨none, "l2", []⟩, .literal ⟨none, "l3", []⟩]⟩ := rfl

/-- Constants outside the round trip read back with another value, or not at all:
`\n` is printed as it is and read back as a line feed, and the double quote inside
`a"b` ends the constant, after which the clause does not parse. -/
theorem fromStr_display_escape :
    ModusClause.display ⟨⟨none, "p", [.constant ⟨['\\', 'n']⟩]⟩, []⟩ =
        .ok ['p', '(', '"', '\\', 'n', '"', ')', '.'] ∧
      ModusClause.fromStr ⟨['p', '(', '"', '\\', 'n', '"', ')', '.']⟩ =
        .ok ⟨⟨none, "p", [.constant ⟨['\n']⟩]⟩, []⟩ ∧
      ModusClause.display ⟨⟨none, "p", [.constant ⟨['a', '"', 'b']⟩]⟩, []⟩ =
        .ok ['p', '(', '"', 'a', '"', 'b', '"', ')', '.'] ∧
      ModusClause.fromStr ⟨['p', '(', '"', 'a', '"', 'b', '"', ')', '.']⟩ = .error .error :=
  ⟨rfl, rfl, rfl, rfl⟩

/-! ## What the parser reads -/

mutual

/-- Every literal of an expression satisfies `p`, its operator included. -/
def Expression.allLiterals (p : Literal → Bool) : Expression → Bool
  | .literal l => p l
  | .operatorApplication exprs op => Expression.allLiteralsList p exprs && p op

/-- Every literal of a list of expressions satisfies `p`. -/
def Expression.allLiteralsList (p : Literal → Bool) : List Expression → Bool
  | [] => true
  | e :: es => e.allLiterals p && Expression.allLiteralsList p es

end

/-- Every literal of a clause satisfies `p`. -/
def ModusClause.allLiterals (p : Literal → Bool) (c : ModusClause) : Bool :=
  p c.head && Expression.allLiteralsList p c.body

/-- A term a Modusfile prints as its value: a constant with no double quote and no
backslash, or a variable. -/
def termPlain : IRTerm → Bool
  | .constant s => !s.data.contains '"' && !s.data.contains '\\'
  | _ => true

/-- What `literal(modus_const, modus_var)` reads: a literal without a position, named
by an identifier, whose arguments are constants and user variables named by
identifiers. -/
def literalRead (l : Literal) : Bool :=
  l.position.isNone && isIdentifier l.predicate.data && l.args.all fun t => t.isGround || termReparses t

theorem Expression.allLiteralsList_iff {p : Literal → Bool} :
    ∀ {es : List Expression}, Expression.allLiteralsList p es = true ↔ ∀ e ∈ es, e.allLiterals p = true
  | [] => by simp [Expression.allLiteralsList]
  | e :: es => by
      have ih := @Expression.allLiteralsList_iff p es
      simp [Expression.allLiteralsList, ih]

/-- A literal the parser read, whose constants print as their values, reads back as
itself. -/
theorem literalReparses_of_read {l : Literal} (hl : literalRead l = true)
    (hc : l.args.all termPlain = true) : literalReparses l = true ∧ eraseLiteral l = l := by
  simp only [literalRead, Bool.and_eq_true, Option.isNone_iff_eq_none, List.all_eq_true,
    Bool.or_eq_true] at hl hc
  obtain ⟨⟨hpos, hname⟩, hargs⟩ := hl
  refine ⟨?_, by rw [eraseLiteral, ← hpos]⟩
  simp only [literalReparses, hname, List.all_eq_true, Bool.true_and]
  intro t ht
  rcases hargs t ht with hg | hr
  · obtain ⟨w, rfl⟩ := IRTerm.isGround_iff.mp hg
    simpa [termPlain, termReparses] using hc _ ht
  · exact hr

mutual

theorem Expression.reparses_of_read :
    ∀ {e : Expression}, e.allLiterals literalRead = true →
      e.allLiterals (·.args.all termPlain) = true → e.reparses = true ∧ e.erase = e
  | .literal l, hl, hc => by
      obtain ⟨hr, he⟩ := literalReparses_of_read hl hc
      exact ⟨hr, by rw [Expression.erase, he]⟩
  | .operatorApplication exprs op, hl, hc => by
      simp only [Expression.allLiterals, Bool.and_eq_true] at hl hc
      obtain ⟨hr, he⟩ := Expression.reparsesList_of_read hl.1 hc.1
      obtain ⟨hr', he'⟩ := literalReparses_of_read hl.2 hc.2
      simp only [Expression.reparses, hr, hr', Bool.and_self, Expression.erase, he, he', and_self]

theorem Expression.reparsesList_of_read :
    ∀ {es : List Expression}, Expression.allLiteralsList literalRead es = true →
      Expression.allLiteralsList (·.args.all termPlain) es = true →
        Expression.reparsesList es = true ∧ Expression.eraseList es = es
  | [], _, _ => ⟨rfl, rfl⟩
  | e :: es, hl, hc => by
      simp only [Expression.allLiteralsList, Bool.and_eq_true] at hl hc
      obtain ⟨hr, he⟩ := Expression.reparses_of_read hl.1 hc.1
      obtain ⟨hr', he'⟩ := Expression.reparsesList_of_read hl.2 hc.2
      simp only [Expression.reparsesList, hr, hr', Bool.and_self, Expression.eraseList, he, he',
        and_self]

end

namespace Parser

theorem term_yields : Yields (fun t => (t.isGround || termReparses t) = true) term :=
  alt_yields (map_yields (yields_true _) fun _ _ => rfl)
    (map_yields Logic.Parser.literalIdentifier_yields fun _ h => by simp [termReparses, h])

theorem literal_yields : Yields (fun l => literalRead l = true) literal :=
  map_yields (pair_yields Logic.Parser.literalIdentifier_yields
      (opt_yields (delimited_yields (separatedList1_yields term_yields))))
    fun x ⟨hname, hargs⟩ => by
      obtain ⟨name, _ | args⟩ := x
      · simpa [literalRead] using hname
      · simpa [literalRead, List.all_eq_true, hname] using hargs args rfl

theorem bodyWith_yields {P : Expression → Prop} {p : Parser Expression} (hp : Yields P p) :
    Yields (fun es => ∀ e ∈ es, P e) (bodyWith p) :=
  preceded_yields (separatedList0_yields hp)

theorem expression_yields : ∀ fuel,
    Yields (fun e => e.allLiterals literalRead = true) (expression fuel)
  | 0 => fun _ _ _ h => by cases h
  | fuel + 1 => alt_yields (map_yields literal_yields fun _ h => h)
      (map_yields (separatedPair_yields (delimited_yields (bodyWith_yields (expression_yields fuel)))
        (cut_yields literal_yields)) fun _ ⟨hexprs, hop⟩ => by
          simp only [Expression.allLiterals, Expression.allLiteralsList_iff.mpr hexprs, hop,
            Bool.and_self])

theorem body_yields : Yields (fun es => ∀ e ∈ es, e.allLiterals literalRead = true) body :=
  fun i => bodyWith_yields (expression_yields (i.length + 1)) i

theorem modusClause_yields : Yields (fun c => c.allLiterals literalRead = true) modusClause :=
  alt_yields (map_yields (terminated_yields literal_yields) fun _ h => by
      simp [ModusClause.allLiterals, Expression.allLiteralsList, h])
    (map_yields (separatedPair_yields literal_yields (cut_yields (terminated_yields body_yields)))
      fun _ ⟨hh, hb⟩ => by
        simp only [ModusClause.allLiterals, hh, Expression.allLiteralsList_iff.mpr hb, Bool.and_self])

end Parser

/-- Every clause `FromStr for ModusClause` reads has no positions, identifiers for its
names and user variables, and constants and user variables for terms. -/
theorem ModusClause.read_of_fromStr {s : String} {c : ModusClause}
    (h : ModusClause.fromStr s = .ok c) : c.allLiterals literalRead = true := by
  rcases hp : Parser.modusClause s.data with e | ⟨r, c'⟩ <;>
    rw [ModusClause.fromStr, hp] at h <;> cases h
  exact Parser.modusClause_yields _ _ _ hp

/-- **What a Modusfile parser reads, it prints and reads back.** A clause
`FromStr for ModusClause` reads, whose constants have no double quote and no
backslash, prints, and its text reads back as the same clause. -/
theorem ModusClause.fromStr_reprints {s : String} {c : ModusClause}
    (h : ModusClause.fromStr s = .ok c) (hc : c.allLiterals (·.args.all termPlain) = true) :
    ∃ s', c.display = .ok s' ∧ ModusClause.fromStr ⟨s'⟩ = .ok c := by
  have hread := ModusClause.read_of_fromStr h
  simp only [ModusClause.allLiterals, Bool.and_eq_true] at hread hc
  obtain ⟨hr, he⟩ := literalReparses_of_read hread.1 hc.1
  obtain ⟨hrs, hes⟩ := Expression.reparsesList_of_read hread.2 hc.2
  obtain ⟨s', hs', h'⟩ := ModusClause.fromStr_display (c := c) (by
    simp [ModusClause.reparses, hr, hrs])
  refine ⟨s', hs', h'.trans ?_⟩
  rw [ModusClause.erase, he, hes]

/-- A rule with an operator, a constant and comments. -/
theorem ModusClause.fromStr_reprints_merge :
    ∃ c, ModusClause.fromStr "a(X) :- # b first\n  (b(X, \"c\"), d)::merge." = .ok c ∧
      ∃ s', c.display = .ok s' ∧ ModusClause.fromStr ⟨s'⟩ = .ok c := by
  obtain ⟨c, h, hc⟩ : ∃ c, ModusClause.fromStr "a(X) :- # b first\n  (b(X, \"c\"), d)::merge." =
      .ok c ∧ c.allLiterals (·.args.all termPlain) = true := ⟨_, by rfl, by rfl⟩
  exact ⟨c, h, ModusClause.fromStr_reprints h hc⟩

/-! ## Comments

`body` skips whitespace and comment lines before each expression, with
`separated_list0(multispace0, comment)` between runs of whitespace; a comment runs
from `#` to the end of its line. The loop of `separated_list0` stops with an `Error`
when its separator reads nothing, so each comment line must be followed by
whitespace: a space, a tab or a line break. -/

/-- Comment lines, each `#`, its text, a line feed, and the whitespace after it. -/
def commentText (ls : List (List Char × List Char)) : List Char :=
  (ls.map fun cw => '#' :: (cw.1 ++ '\n' :: cw.2)).flatten

/-- A comment line that `body` skips: its text has no line break, and whitespace
follows it. -/
def CommentLine (cw : List Char × List Char) : Prop :=
  (∀ x ∈ cw.1, x ≠ '\r' ∧ x ≠ '\n') ∧ cw.2 ≠ [] ∧ ∀ x ∈ cw.2, isMultispace x = true

instance (cw : List Char × List Char) : Decidable (CommentLine cw) :=
  inferInstanceAs (Decidable (_ ∧ _ ∧ _))

/-- Whitespace, then comment lines: what a user may write before an expression of a
body. -/
structure Block where
  ws : List Char
  lines : List (List Char × List Char)
  deriving DecidableEq, Repr

/-- The text of a block. -/
def Block.text (b : Block) : List Char := b.ws ++ commentText b.lines

/-- A block that `body` skips. -/
def Block.Valid (b : Block) : Prop :=
  (∀ x ∈ b.ws, isMultispace x = true) ∧ ∀ cw ∈ b.lines, CommentLine cw

instance (b : Block) : Decidable b.Valid := inferInstanceAs (Decidable (_ ∧ _))

/-- A body as a user may write it: each expression's text after a block, with a comma
before each block but the first. -/
def commentedBody : List (Block × List Char) → List Char
  | [] => []
  | (b, s) :: rest => b.text ++ (s ++ gapped (rest.map fun bs => (',' :: bs.1.text, bs.2)))

/-- A rule with a block before each expression of its body. The printer writes no
comments; this is the text a user may write. -/
def ModusClause.displayCommented (c : ModusClause) (bs : List Block) :
    Except String (List Char) := do
  let head ← c.head.display
  let ss ← Expression.displayList c.body
  pure (head ++ " :- ".data ++ commentedBody (bs.zip ss) ++ ['.'])

theorem length_le_commentedBody {ps : List (Block × List Char)} {b : Block} {s : List Char}
    (h : (b, s) ∈ ps) : s.length ≤ (commentedBody ps).length := by
  obtain _ | ⟨⟨b', s'⟩, rest⟩ := ps
  · cases h
  rw [commentedBody]
  rcases List.mem_cons.mp h with h | h
  · cases h; simp only [List.length_append]; omega
  · have hsub : List.Sublist s (gapped (rest.map fun bs => (',' :: bs.1.text, bs.2))) :=
      (List.sublist_append_right _ _).trans (List.sublist_flatten_of_mem
        (List.mem_map.mpr ⟨(',' :: b.text, s), List.mem_map.mpr ⟨(b, s), h, rfl⟩, rfl⟩))
    simp only [List.length_append]
    have := hsub.length_le
    omega

/-- Lists related element by element, the right one zipped with a list of as many
items. -/
theorem forall₂_zip_right {α β γ : Type} {R : α → β → Prop} :
    ∀ {l : List α} {u : List β} {v : List γ}, List.Forall₂ R l u → v.length = u.length →
      List.Forall₂ (fun a p => R a p.2) l (v.zip u)
  | _, _, [], .nil, _ => .nil
  | _, _, _ :: _, .cons h hs, hv => .cons h (forall₂_zip_right hs (by simpa using hv))

namespace Parser

theorem notLineEnding_line {c : List Char} (hc : ∀ x ∈ c, x ≠ '\r' ∧ x ≠ '\n') (y : List Char) :
    notLineEnding (c ++ '\n' :: y) = .ok ('\n' :: y, c) := by
  obtain ⟨h₁, h₂⟩ := takeWhile_append_of_stop (p := fun x => x != '\r' && x != '\n')
    (r := '\n' :: y) (fun x hx => by simpa using hc x hx) (fun x hx => by cases hx; rfl)
  rw [notLineEnding, h₂, h₁]
  rfl

theorem comment_line {c : List Char} (hc : ∀ x ∈ c, x ≠ '\r' ∧ x ≠ '\n') (y : List Char) :
    comment ('#' :: (c ++ '\n' :: y)) = .ok (y, c) :=
  delimited_ok (tag_append ['#'] _) (notLineEnding_line hc y) (by rfl)

theorem comment_error {i : List Char} (hi : ∀ x ∈ i.head?, x ≠ '#') : comment i = .error .error :=
  delimited_error_left (tag_error fun ⟨u, hu⟩ => hi '#' (by rw [← hu]; rfl) rfl)

theorem comment_consumes : Consumes comment :=
  delimited_consumes (tag_consumes _) notLineEnding_consumes lineEnding_consumes

/-- After a comment line, the loop of `separated_list0(multispace0, comment)` reads
the whitespace and the comment lines that follow, and stops before the whitespace
after the last one. -/
theorem sepLoop_commentText {i : List Char}
    (hi : ∀ x ∈ i.head?, isMultispace x = false ∧ x ≠ '#') :
    ∀ (ls : List (List Char × List Char)) (w : List Char), w ≠ [] →
      (∀ x ∈ w, isMultispace x = true) → (∀ cw ∈ ls, CommentLine cw) →
      ∃ w', (∀ x ∈ w', isMultispace x = true) ∧
        sepLoop multispace0 comment ((w ++ commentText ls ++ i).length + 1)
          (w ++ commentText ls ++ i) = .ok (w' ++ i, ls.map Prod.fst)
  | [], w, hne, hw, _ => by
      rw [show w ++ commentText [] ++ i = w ++ i by simp [commentText]]
      refine ⟨w, hw, sepLoop_elem_error (Nat.succ_pos _)
        (takeWhile0_append hw fun x hx => (hi x hx).1) ?_ (comment_error fun x hx => (hi x hx).2)⟩
      simpa using List.length_pos.mpr hne
  | (c, w₁) :: ls, w, hne, hw, hls => by
      obtain ⟨hc, hne₁, hw₁⟩ : CommentLine (c, w₁) := hls _ (List.mem_cons_self _ _)
      dsimp only at hc hne₁ hw₁
      obtain ⟨w', hw', hloop⟩ := sepLoop_commentText hi ls w₁ hne₁ hw₁
        fun cw h => hls cw (List.mem_cons_of_mem _ h)
      refine ⟨w', hw', ?_⟩
      have htext : w ++ commentText ((c, w₁) :: ls) ++ i =
          w ++ '#' :: (c ++ '\n' :: (w₁ ++ commentText ls ++ i)) := by
        simp [commentText]
      rw [htext, sepLoop_ok comment_consumes (show Consumes multispace0 from takeWhile0_consumes _)
        (Nat.lt_succ_self _)
        (show multispace0 (w ++ _) = _ from takeWhile0_append hw fun x hx => by cases hx; rfl)
        (by simpa using List.length_pos.mpr hne) (comment_line hc _), hloop]
      rfl

/-- `body` skips whitespace and comment lines, each followed by whitespace, before an
expression, a closing parenthesis or a full stop. -/
theorem comments_commentText {w : List Char} (hw : ∀ x ∈ w, isMultispace x = true)
    {ls : List (List Char × List Char)} (hls : ∀ cw ∈ ls, CommentLine cw) {i : List Char}
    (hi : StartsItem i) : comments (w ++ commentText ls ++ i) = .ok (i, ls.map Prod.fst) := by
  have hi' : ∀ x ∈ i.head?, isMultispace x = false ∧ x ≠ '#' := fun x hx => startsItem_head (hi x hx)
  obtain _ | ⟨⟨c, w₁⟩, ls⟩ := ls
  · simpa [commentText] using comments_append hw hi
  obtain ⟨hc, hne₁, hw₁⟩ : CommentLine (c, w₁) := hls _ (List.mem_cons_self _ _)
  dsimp only at hc hne₁ hw₁
  obtain ⟨w', hw', hloop⟩ := sepLoop_commentText hi' ls w₁ hne₁ hw₁
    fun cw h => hls cw (List.mem_cons_of_mem _ h)
  have htext : w ++ commentText ((c, w₁) :: ls) ++ i =
      w ++ '#' :: (c ++ '\n' :: (w₁ ++ commentText ls ++ i)) := by
    simp [commentText]
  rw [htext]
  refine delimited_ok (takeWhile0_append hw fun x hx => by cases hx; rfl) ?_
    (takeWhile0_append hw' fun x hx => (hi' x hx).1)
  simp only [separatedList0, comment_line hc, hloop, List.map_cons]

/-- The separator of `body` reads a comma and the block after it. -/
theorem bodySep_block {b : Block} (hb : b.Valid) {y : List Char} (hy : StartsItem y) :
    delimited multispace0 (tag [',']) comments (',' :: (b.text ++ y)) = .ok (y, [',']) :=
  delimited_ok (takeWhile0_of_stop fun _ hc => by cases hc; rfl) (tag_append [','] _)
    (comments_commentText hb.1 hb.2 hy)

theorem commentText_stop (ls : List (List Char × List Char)) {i : List Char}
    (hi : StartsItem i) : ∀ x ∈ (commentText ls ++ i).head?, isMultispace x = false := by
  cases ls with
  | nil => simpa [commentText] using fun x hx => (startsItem_head (hi x hx)).1
  | cons cw ls => intro x hx; simp [commentText] at hx; subst hx; rfl

section CommentedBody

variable {p : Parser Expression} (hp : Consumes p)
include hp

/-- `body` reads back expressions written with a block before each and a comma
before each block but the first, when `p` reads back the text of each, and stops at
the closing parenthesis or full stop after them. -/
theorem bodyWith_commented {exprs : List Expression} {ss : List (List Char)}
    {bs : List Block} {r : List Char}
    (hitem : ∀ (e : Expression) (s x : List Char), e.reparses = true → e.display = .ok s →
      s.length ≤ (commentedBody (bs.zip ss)).length → EndsLiteral x →
        p (s ++ x) = .ok (x, e.erase))
    (hexprs : Expression.reparsesList exprs = true) (hss : Expression.displayList exprs = .ok ss)
    (hbs : ∀ b ∈ bs, b.Valid) (hlen : bs.length = exprs.length) (hne : exprs ≠ [])
    (hr : ∀ c ∈ r.head?, c = ')' ∨ c = '.') :
    bodyWith p (commentedBody (bs.zip ss) ++ r) = .ok (r, exprs.map Expression.erase) := by
  have hF := Expression.displayList_forall₂ hss
  have hrel := forall₂_and_right (forall₂_zip_right ((List.forall₂_and_left _ _).mpr
    ⟨Expression.reparsesList_iff.mp hexprs, hF⟩) (hlen.trans hF.length_eq))
    (p := fun bp => bp.2.length ≤ (commentedBody (bs.zip ss)).length ∧ bp.1.Valid)
    fun ⟨b, s⟩ h => ⟨length_le_commentedBody h, hbs b (List.of_mem_zip h).1⟩
  generalize bs.zip ss = ps at hitem hrel ⊢
  obtain _ | @⟨e, ⟨b₀, s₀⟩, es, rest, he, hes⟩ := hrel
  · exact absurd rfl hne
  obtain ⟨as, has, hR⟩ := separatedList0_gapped hp bodySep_consumes
    (fun g e s x (hg : ∃ b : Block, b.Valid ∧ g = ',' :: b.text)
        (h : (e.reparses = true ∧ e.display = .ok s) ∧
          s.length ≤ (commentedBody ((b₀, s₀) :: rest)).length) => by
      obtain ⟨b, hb, rfl⟩ := hg
      exact ⟨_, bodySep_block hb (Expression.display_startsItem h.1.1 h.1.2 x)⟩)
    (fun g ⟨_, _, hg⟩ => hg ▸ List.cons_ne_nil _ _) (bodySep_error hr)
    (fun e s x h hx => ⟨_, hitem e s x h.1.1 h.1.2 h.2 hx, rfl⟩)
    (fun g x ⟨_, _, hg⟩ => hg ▸ ⟨fun _ hc => by cases hc; rfl, fun _ hc => by cases hc; decide⟩)
    (endsLiteral_of_close hr) ⟨he.1, he.2.1⟩
    ((List.forall₂_map_right_iff (f := fun bp : Block × List Char => (',' :: bp.1.text, bp.2))).mpr
      (hes.imp fun _ bp h => ⟨⟨bp.1, h.2.2, rfl⟩, h.1, h.2.1⟩))
  have hmap := List.forall₂_map_left_iff.mpr hR
  rw [List.forall₂_eq_eq_eq] at hmap
  rw [commentedBody, List.append_assoc, List.append_assoc, hmap]
  exact preceded_ok (comments_commentText he.2.2.1 he.2.2.2
    (Expression.display_startsItem he.1.1 he.1.2 _)) has

end CommentedBody

/-- `modus_clause` reads back a rule written with a block before each expression of
its body, with the positions of its literals erased. -/
theorem modusClause_displayCommented {c : ModusClause} {bs : List Block} {s : List Char}
    (hc : c.reparses = true) (hne : c.body ≠ []) (hbs : ∀ b ∈ bs, b.Valid)
    (hlen : bs.length = c.body.length) (hs : c.displayCommented bs = .ok s) :
    modusClause s = .ok ([], c.erase) := by
  simp only [ModusClause.reparses, Bool.and_eq_true] at hc
  obtain ⟨h, hh, hs⟩ := bind_eq_ok.mp hs
  obtain ⟨ss, hss, hs⟩ := bind_eq_ok.mp hs
  cases hs
  obtain ⟨head, body⟩ := c
  obtain _ | ⟨b₀, bs⟩ := bs
  · exact absurd (List.length_eq_zero.mp hlen.symm) hne
  obtain _ | @⟨e, s₀, es, ss, hs₀, -⟩ := Expression.displayList_forall₂ hss
  · exact absurd rfl hne
  have hb₀ : b₀.Valid := hbs b₀ (List.mem_cons_self _ _)
  -- the neck's `multispace0` reads the whitespace of the first block
  obtain ⟨X, hX⟩ : ∃ X, X = commentText b₀.lines ++
      (s₀ ++ (gapped ((bs.zip ss).map fun bp => (',' :: bp.1.text, bp.2)) ++ ['.'])) := ⟨_, rfl⟩
  have hstop : ∀ x ∈ X.head?, isMultispace x = false := hX ▸ commentText_stop b₀.lines
    (Expression.display_startsItem (Expression.reparsesList_iff.mp hc.2 e
      (List.mem_cons_self _ _)) hs₀ _)
  have hhead := literal_display_append hc.1 hh (r := " :- ".data ++ (b₀.ws ++ X))
    ⟨fun _ hc => by cases hc; rfl, fun _ hc => by cases hc; decide⟩
  have hneck : delimited space0 (tag [':', '-']) multispace0 (" :- ".data ++ (b₀.ws ++ X)) =
      .ok (X, [':', '-']) :=
    delimited_ok (takeWhile0_append (w := [' ']) (by simp [isBlank]) fun _ hc => by cases hc; rfl)
      (tag_append [':', '-'] _)
      (takeWhile0_append (w := ' ' :: b₀.ws) (by simpa [isMultispace] using hb₀.1) hstop)
  have hbody : body X = .ok (['.'], (e :: es).map Expression.erase) := by
    have hbs' : ∀ b ∈ (⟨[], b₀.lines⟩ :: bs : List Block), b.Valid := fun b hb => by
      rcases List.mem_cons.mp hb with rfl | hb
      exacts [⟨fun _ h => (List.not_mem_nil _ h).elim, hb₀.2⟩, hbs b (List.mem_cons_of_mem _ hb)]
    rw [show X = commentedBody ((⟨[], b₀.lines⟩ :: bs : List Block).zip (s₀ :: ss)) ++ ['.'] by
      simp [hX, commentedBody, Block.text]]
    exact bodyWith_commented (expression_consumes _)
      (fun _ _ _ he hs hle hx => expression_display_append _ he hs hx (by
        rw [List.length_append]; omega))
      hc.2 hss hbs' hlen hne (fun _ hc => by cases hc; exact .inr rfl)
  have hfact : fact (h ++ (" :- ".data ++ (b₀.ws ++ X))) = .error .error :=
    map_error (map_error (pair_error_right hhead (tag_cons_error (by decide))) _) _
  rw [show h ++ " :- ".data ++ commentedBody ((b₀ :: bs).zip (s₀ :: ss)) ++ ['.'] =
      h ++ (" :- ".data ++ (b₀.ws ++ X)) by simp [hX, commentedBody, Block.text],
    modusClause, alt_error hfact, ModusClause.erase, Expression.eraseList_eq_map]
  exact map_ok (separatedPair_ok hhead hneck (cut_ok (terminated_ok hbody
    (tag_append ['.'] [])))) _

/-- After `:-`, a comment line followed at once by anything but whitespace stops the
rule with a `Failure`: the loop of `separated_list0(multispace0, comment)` meets a
separator that reads nothing, and the `cut` after `:-` turns the `Error` into a
`Failure`. -/
theorem modusClause_comment_unindented {l : Literal} {h c x : List Char}
    (hl : literalReparses l = true) (hh : l.display = .ok h)
    (hc : ∀ y ∈ c, y ≠ '\r' ∧ y ≠ '\n') (hx : ∀ y ∈ x.head?, isMultispace y = false) :
    modusClause (h ++ (" :- ".data ++ ('#' :: (c ++ '\n' :: x)))) = .error .failure := by
  have hcom : comments ('#' :: (c ++ '\n' :: x)) = .error .error :=
    delimited_error_mid (takeWhile0_of_stop fun _ hy => by cases hy; rfl) (by
      simp only [separatedList0, comment_line hc,
        sepLoop_sep_stuck (Nat.succ_pos _) (show multispace0 x = .ok (x, []) from takeWhile0_of_stop hx)])
  have hhead := literal_display_append hl hh (r := " :- ".data ++ ('#' :: (c ++ '\n' :: x)))
    ⟨fun _ hc => by cases hc; rfl, fun _ hc => by cases hc; decide⟩
  have hneck : delimited space0 (tag [':', '-']) multispace0
      (" :- ".data ++ ('#' :: (c ++ '\n' :: x))) = .ok ('#' :: (c ++ '\n' :: x), [':', '-']) :=
    delimited_ok (takeWhile0_append (w := [' ']) (by simp [isBlank]) fun _ hc => by cases hc; rfl)
      (tag_append [':', '-'] _)
      (takeWhile0_append (w := [' ']) (by simp [isMultispace]) fun _ hc => by cases hc; rfl)
  have hfact : fact (h ++ (" :- ".data ++ ('#' :: (c ++ '\n' :: x)))) = .error .error :=
    map_error (map_error (pair_error_right hhead (tag_cons_error (by decide))) _) _
  have hbody : body ('#' :: (c ++ '\n' :: x)) = .error .error := map_error (pair_error_left hcom) _
  have hcut : cut (terminated body (tag ['.'])) ('#' :: (c ++ '\n' :: x)) = .error .failure :=
    cut_error (map_error (pair_error_left hbody) _)
  rw [modusClause, alt_error hfact]
  exact map_error (pair_error_right hhead (map_error (pair_error_right hneck hcut) _)) _

end Parser

/-- **Comments in a body read back.** A rule whose names are identifiers and whose
constants have no double quote and no backslash, written with whitespace and comment
lines before each expression of its body (each comment line followed by whitespace),
reads back as itself with the positions of its literals erased. -/
theorem ModusClause.fromStr_displayCommented {c : ModusClause} {bs : List Block}
    {s : List Char} (hc : c.reparses = true) (hne : c.body ≠ []) (hbs : ∀ b ∈ bs, b.Valid)
    (hlen : bs.length = c.body.length) (hs : c.displayCommented bs = .ok s) :
    ModusClause.fromStr ⟨s⟩ = .ok c.erase := by
  rw [ModusClause.fromStr, Parser.modusClause_displayCommented hc hne hbs hlen hs]; rfl

/-- A rule with a comment before each expression of its body. -/
theorem ModusClause.fromStr_displayCommented_rule :
    let c : ModusClause :=
      ⟨⟨none, "foo", []⟩, [.literal ⟨none, "bar", []⟩, .literal ⟨none, "baz", []⟩]⟩
    let bs : List Block := [⟨[], [(" first".data, "  ".data)]⟩, ⟨[' '], [(" second".data, ['\t'])]⟩]
    c.displayCommented bs = .ok "foo :- # first\n  bar, # second\n\tbaz.".data ∧
      ModusClause.fromStr "foo :- # first\n  bar, # second\n\tbaz." = .ok c.erase := by
  intro c bs
  have hs : c.displayCommented bs = .ok "foo :- # first\n  bar, # second\n\tbaz.".data := rfl
  exact ⟨hs, ModusClause.fromStr_displayCommented (by decide) (List.cons_ne_nil _ _) (by decide)
    rfl hs⟩

/-- **A comment line must be followed by whitespace.** After the `:-` of a rule, a
comment line directly followed by anything but a space, a tab or a line break makes
the whole clause fail with a `Failure`, whatever follows. -/
theorem ModusClause.fromStr_comment_unindented {l : Literal} {h c x : List Char}
    (hl : literalReparses l = true) (hh : l.display = .ok h)
    (hc : ∀ y ∈ c, y ≠ '\r' ∧ y ≠ '\n') (hx : ∀ y ∈ x.head?, isMultispace y = false) :
    ModusClause.fromStr ⟨h ++ " :- #".data ++ c ++ '\n' :: x⟩ = .error .failure := by
  rw [ModusClause.fromStr, show h ++ " :- #".data ++ c ++ '\n' :: x =
      h ++ (" :- ".data ++ ('#' :: (c ++ '\n' :: x))) by simp only [List.append_assoc]; rfl,
    Parser.modusClause_comment_unindented hl hh hc hx]
  rfl

/-- The rule `foo :- # note` with `bar.` at the start of the next line. -/
theorem ModusClause.fromStr_comment_unindented_note :
    ModusClause.fromStr ⟨"foo".data ++ " :- #".data ++ " note".data ++ '\n' :: "bar.".data⟩ =
      .error .failure :=
  ModusClause.fromStr_comment_unindented (l := ⟨none, "foo", []⟩) (by decide) rfl (by decide)
    (by decide)

/-! ## From Modusfile text to IR text -/

mutual

theorem Expression.getLiterals_erase :
    ∀ e : Expression, e.erase.getLiterals = e.getLiterals.map eraseLiteral
  | .literal _ => rfl
  | .operatorApplication exprs _ => Expression.getLiteralsList_eraseList exprs

theorem Expression.getLiteralsList_eraseList :
    ∀ es : List Expression, Expression.getLiteralsList (Expression.eraseList es) =
      (Expression.getLiteralsList es).map eraseLiteral
  | [] => rfl
  | e :: es => by
      rw [Expression.eraseList, Expression.getLiteralsList, Expression.getLiteralsList,
        Expression.getLiterals_erase e, Expression.getLiteralsList_eraseList es, List.map_append]

end

/-- Reading a clause back erases positions, which the conversion keeps: the IR clause
of the erased clause is the IR clause with its positions erased. -/
theorem ModusClause.toClause_erase (c : ModusClause) :
    c.erase.toClause = ⟨eraseLiteral c.head, c.toClause.body.map eraseLiteral⟩ := by
  rw [ModusClause.erase, ModusClause.toClause, Expression.getLiteralsList_eraseList]
  rfl

/-- **From Modusfile text to IR text.** A clause in the domain of both round trips
prints as Modusfile text; the clause read back from it converts to an IR clause that
prints, and reads back in the IR syntax as the conversion of the first clause when
positions are ignored. -/
theorem ModusClause.toClause_fromStr_display {c : ModusClause} (hc : c.reparses = true)
    (hir : c.toClause.reparses = true) :
    ∃ s, c.display = .ok s ∧ ∃ m, ModusClause.fromStr ⟨s⟩ = .ok m ∧
      ∃ s', m.toClause.display = .ok s' ∧ ∃ c', Clause.fromStr ⟨s'⟩ = .ok c' ∧
        c.toClause.eqIgnoringPosition c' := by
  obtain ⟨s, hs, hm⟩ := ModusClause.fromStr_display hc
  have hir' : c.erase.toClause.reparses = true := by
    rw [ModusClause.toClause_erase]
    simpa [Clause.reparses, List.all_map] using hir
  obtain ⟨s', hs', c', hc', hh, hb⟩ := Clause.fromStr_display hir'
  rw [ModusClause.toClause_erase] at hh hb
  exact ⟨s, hs, _, hm, s', hs', c', hc', hh, (List.forall₂_map_left_iff (f := eraseLiteral)).mp hb⟩

/-- The clause of the source's test, `foo :- (a, b)::merge.`, with arguments added:
its IR text is `foo :- a(X), b("c")`. -/
theorem ModusClause.toClause_fromStr_display_merge :
    let r : ModusClause := ⟨⟨none, "foo", []⟩, [.operatorApplication
      [.literal ⟨none, "a", [.userVariable "X"]⟩, .literal ⟨none, "b", [.constant "c"]⟩]
      ⟨none, "merge", []⟩]⟩
    ∃ s, r.display = .ok s ∧ ∃ m, ModusClause.fromStr ⟨s⟩ = .ok m ∧
      ∃ s', m.toClause.display = .ok s' ∧ ∃ c', Clause.fromStr ⟨s'⟩ = .ok c' ∧
        r.toClause.eqIgnoringPosition c' := by
  intro r
  exact ModusClause.toClause_fromStr_display (c := r) (by decide) (by decide)

end Modus.Modusfile
