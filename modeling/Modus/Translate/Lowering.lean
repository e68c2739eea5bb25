import Modus.Logic

/-!
# Lowering surface clauses to IR clauses

`translate.rs` turns a surface clause of a Modusfile into IR clauses. A format
string `f"…"` becomes a chain of `string_concat` literals over fresh auxiliary
variables (`convert_format_string`); a literal's format-string arguments are
replaced by the chains' last variables, the chains going first in the body; a
conjunction takes every body of its left side with every body of its right side,
a disjunction the bodies of both sides, and an operator is dropped.

The surface types of this `translate.rs` (a term with format strings, an
expression with `And` and `Or`, a clause with an optional body), the parser
`outside_format_expansion` it calls and the conversion of the head are not in the
`modusfile.rs` under src/, which is another version of that file. The types and
the parser are modelled from the spec (§3, §4.3); the head conversion is a
parameter, `lowerHead`. `modus_var` is `literal_identifier` of `logic.rs`.

## Main results

* `outsideFormatExpansion_append` — the parser returns a split of its input.
* `length_expansion_lt` — an expansion consumes input, so the loop terminates.
* `convertLoop_expansion`, `convertLoop_end` — the two kinds of pass of the loop, and
  `convertLoop_induction`, induction along them.
-/

namespace Modus.Translate

open Modus.Logic

/-! ## Surface syntax -/

/-- Modelled from the spec (§3): `ModusTerm`, a surface term. -/
inductive ModusTerm where
  | constant (c : String)
  | formatString (s : String)
  | userVariable (name : String)
  deriving DecidableEq, Repr

/-- Modelled from the spec (§3): a surface literal, over surface terms. -/
structure ModusLiteral where
  position : Option SpannedPosition
  predicate : String
  args : List ModusTerm
  deriving DecidableEq, Repr

/-- Modelled from the spec (§3): `Expression`, the body of a surface clause. -/
inductive Expression where
  | literal (l : ModusLiteral)
  | and (e₁ e₂ : Expression)
  | or (e₁ e₂ : Expression)
  | operatorApplication (e : Expression) (op : ModusLiteral)
  deriving DecidableEq, Repr

/-- Modelled from the spec (§3): `ModusClause`, a head and an optional body. -/
structure ModusClause where
  head : ModusLiteral
  body : Option Expression
  deriving DecidableEq, Repr

/-! ## Parsers -/

/-- A character `literal_identifier` accepts after the first: ASCII letters and
digits, `_` and `-`. -/
def identChar (c : Char) : Bool := c.isAlphanum || c == '_' || c == '-'

/-- `literal_identifier` (`modus_var`): an ASCII letter, then as many identifier
characters as follow. As nom does, it returns the rest of the input first. -/
def literalIdentifier : List Char → Option (List Char × List Char)
  | c :: cs => if c.isAlpha then some (cs.dropWhile identChar, c :: cs.takeWhile identChar) else none
  | [] => none

/-- `delimited(tag("${"), modus_var, tag("}"))`: an expansion `${name}`. -/
def expansion : List Char → Option (List Char × List Char)
  | '$' :: '{' :: cs =>
      match literalIdentifier cs with
      | some ('}' :: rest, name) => some (rest, name)
      | _ => none
  | _ => none

/-- Modelled from the spec (§4.3): `outside_format_expansion`, the outside segment
at the front of a format string: everything up to the first `${` that is not
escaped as `\${`. An escape `\$` is kept as it is. It returns the rest first. -/
def outsideFormatExpansion : List Char → List Char × List Char
  | '\\' :: '$' :: cs =>
      let r := outsideFormatExpansion cs
      (r.1, '\\' :: '$' :: r.2)
  | '$' :: '{' :: cs => ('$' :: '{' :: cs, [])
  | c :: cs =>
      let r := outsideFormatExpansion cs
      (r.1, c :: r.2)
  | [] => ([], [])

/-- `str::replace("\\$", "$")`: each `\$`, from left to right, becomes `$`. -/
def replaceEscapes : List Char → List Char
  | '\\' :: '$' :: cs => '$' :: replaceEscapes cs
  | c :: cs => c :: replaceEscapes cs
  | [] => []

theorem outsideFormatExpansion_append (cs : List Char) :
    (outsideFormatExpansion cs).2 ++ (outsideFormatExpansion cs).1 = cs := by
  induction cs using outsideFormatExpansion.induct <;> simp_all [outsideFormatExpansion]

/-- An identifier is a non-empty prefix of the input. -/
theorem literalIdentifier_append {cs rest name : List Char}
    (h : literalIdentifier cs = some (rest, name)) : name ++ rest = cs ∧ name ≠ [] := by
  cases cs with
  | nil => cases h
  | cons c cs =>
      simp only [literalIdentifier] at h
      split at h
      · cases h; exact ⟨by simp [List.takeWhile_append_dropWhile], List.cons_ne_nil _ _⟩
      · cases h

/-- An expansion is `${name}` at the front of the input. -/
theorem expansion_append {cs rest name : List Char} (h : expansion cs = some (rest, name)) :
    cs = '$' :: '{' :: (name ++ '}' :: rest) ∧ name ≠ [] := by
  unfold expansion at h
  split at h
  · split at h
    · rename_i hid
      cases h
      obtain ⟨happ, hne⟩ := literalIdentifier_append hid
      exact ⟨by rw [← happ], hne⟩
    · cases h
  · cases h

theorem length_expansion_lt {cs rest name : List Char} (h : expansion cs = some (rest, name)) :
    rest.length < cs.length := by
  rw [(expansion_append h).1]
  simp only [List.length_cons, List.length_append]
  omega

/-! ## `convert_format_string` -/

/-- `string_concat(a, b, c)`, as `convert_format_string` builds it. -/
def concatLiteral (a b c : IRTerm) : Literal := ⟨none, "string_concat", [a, b, c]⟩

/-- The `while` loop of `convert_format_string`, from the input left, the last
variable made and the literals so far. Each pass takes an outside segment and,
if an expansion follows, the expansion; otherwise the loop ends, dropping what is
left of the input. -/
def convertLoop (curr : List Char) (prev : IRTerm) (lits : List Literal) (n : Nat) :
    (List Literal × IRTerm) × Nat :=
  if curr = [] then ((lits, prev), n)
  else
    let r := outsideFormatExpansion curr
    let lits := lits ++ [concatLiteral prev (.constant ⟨replaceEscapes r.2⟩) (aux n).1]
    match hexp : expansion r.1 with
    | some (rest, name) =>
        have := length_expansion_lt hexp
        convertLoop rest (aux (aux n).2).1
          (lits ++ [concatLiteral (aux n).1 (.userVariable ⟨name⟩) (aux (aux n).2).1])
          (aux (aux n).2).2
    | none => ((lits, (aux n).1), (aux n).2)
termination_by curr.length
decreasing_by
  have hsplit : (r.2 ++ r.1).length = curr.length :=
    congrArg List.length (outsideFormatExpansion_append curr)
  rw [List.length_append] at hsplit
  omega

@[simp] theorem convertLoop_nil (prev : IRTerm) (lits : List Literal) (n : Nat) :
    convertLoop [] prev lits n = ((lits, prev), n) := by
  rw [convertLoop, if_pos rfl]

/-- A pass that reads a segment and then an expansion. -/
theorem convertLoop_expansion {curr rest name : List Char} {prev : IRTerm} {lits : List Literal}
    {n : Nat} (hne : curr ≠ [])
    (hexp : expansion (outsideFormatExpansion curr).1 = some (rest, name)) :
    convertLoop curr prev lits n =
      convertLoop rest (.auxiliaryVariable (UInt32.ofNat (n + 1)))
        (lits ++ [concatLiteral prev (.constant ⟨replaceEscapes (outsideFormatExpansion curr).2⟩)
            (.auxiliaryVariable (UInt32.ofNat n)),
          concatLiteral (.auxiliaryVariable (UInt32.ofNat n)) (.userVariable ⟨name⟩)
            (.auxiliaryVariable (UInt32.ofNat (n + 1)))]) (n + 2) := by
  rw [convertLoop, if_neg hne]
  dsimp only
  split <;> simp_all [aux_fst]

/-- The last pass: a segment, and no expansion after it. -/
theorem convertLoop_end {curr : List Char} {prev : IRTerm} {lits : List Literal}
    {n : Nat} (hne : curr ≠ []) (hexp : expansion (outsideFormatExpansion curr).1 = none) :
    convertLoop curr prev lits n =
      ((lits ++ [concatLiteral prev (.constant ⟨replaceEscapes (outsideFormatExpansion curr).2⟩)
          (.auxiliaryVariable (UInt32.ofNat n))], .auxiliaryVariable (UInt32.ofNat n)), n + 1) := by
  rw [convertLoop, if_neg hne]
  dsimp only
  split <;> simp_all [aux_fst]

/-- Induction along the passes of the loop. -/
theorem convertLoop_induction (motive : List Char → IRTerm → List Literal → Nat → Prop)
    (nil : ∀ prev lits n, motive [] prev lits n)
    (pass : ∀ curr prev lits n rest name, curr ≠ [] →
      expansion (outsideFormatExpansion curr).1 = some (rest, name) →
      motive rest (.auxiliaryVariable (UInt32.ofNat (n + 1)))
        (lits ++ [concatLiteral prev (.constant ⟨replaceEscapes (outsideFormatExpansion curr).2⟩)
            (.auxiliaryVariable (UInt32.ofNat n)),
          concatLiteral (.auxiliaryVariable (UInt32.ofNat n)) (.userVariable ⟨name⟩)
            (.auxiliaryVariable (UInt32.ofNat (n + 1)))]) (n + 2) →
      motive curr prev lits n)
    (last : ∀ curr prev lits n, curr ≠ [] →
      expansion (outsideFormatExpansion curr).1 = none → motive curr prev lits n)
    (curr : List Char) (prev : IRTerm) (lits : List Literal) (n : Nat) :
    motive curr prev lits n :=
  convertLoop.induct motive nil
    (fun curr prev lits n hne rest name hexp _ ih =>
      pass curr prev lits n rest name hne hexp (by simpa only [List.append_assoc] using ih))
    last curr prev lits n

/-- The loop only appends to the literals it is given. -/
theorem convertLoop_extends (curr : List Char) (prev : IRTerm) (lits : List Literal) (n : Nat) :
    lits <+: (convertLoop curr prev lits n).1.1 := by
  induction curr, prev, lits, n using convertLoop_induction with
  | nil => simp
  | pass curr prev lits n rest name hne hexp ih =>
      rw [convertLoop_expansion hne hexp]
      exact (List.prefix_append _ _).trans ih
  | last curr prev lits n hne hexp =>
      rw [convertLoop_end hne hexp]
      exact List.prefix_append _ _

theorem mem_convertLoop {curr : List Char} {prev : IRTerm} {lits : List Literal} {n : Nat}
    {l : Literal} (h : l ∈ lits) : l ∈ (convertLoop curr prev lits n).1.1 :=
  (convertLoop_extends curr prev lits n).subset h

/-- The loop only draws. -/
theorem le_convertLoop_snd (curr : List Char) (prev : IRTerm) (lits : List Literal) (n : Nat) :
    n ≤ (convertLoop curr prev lits n).2 := by
  induction curr, prev, lits, n using convertLoop_induction with
  | nil => simp
  | pass curr prev lits n rest name hne hexp ih =>
      rw [convertLoop_expansion hne hexp]
      exact Nat.le_trans (Nat.le_add_right n 2) ih
  | last curr prev lits n hne hexp =>
      rw [convertLoop_end hne hexp]
      exact Nat.le_succ n

/-- `convert_format_string`: the literals that build the format string's value
into an auxiliary variable, from the no-op `string_concat("", "", V₀)` on, and
that variable. -/
def convertFormatString (s : String) (n : Nat) : (List Literal × IRTerm) × Nat :=
  convertLoop s.data (aux n).1 [concatLiteral (.constant "") (.constant "") (aux n).1] (aux n).2

theorem convertFormatString_eq (s : String) (n : Nat) :
    convertFormatString s n =
      convertLoop s.data (.auxiliaryVariable (UInt32.ofNat n))
        [concatLiteral (.constant "") (.constant "") (.auxiliaryVariable (UInt32.ofNat n))] (n + 1) :=
  rfl

/-! ## `From<&ModusClause> for Vec<logic::Clause>` -/

/-- The loop over a literal's arguments: constants and user variables carry over,
a format string becomes its chain's last variable, its literals collected in order. -/
def lowerArgs : List ModusTerm → Nat → (List Literal × List IRTerm) × Nat
  | [], n => (([], []), n)
  | .constant c :: ts, n =>
      let r := lowerArgs ts n
      ((r.1.1, .constant c :: r.1.2), r.2)
  | .userVariable v :: ts, n =>
      let r := lowerArgs ts n
      ((r.1.1, .userVariable v :: r.1.2), r.2)
  | .formatString s :: ts, n =>
      let f := convertFormatString s n
      let r := lowerArgs ts f.2
      ((f.1.1 ++ r.1.1, f.1.2 :: r.1.2), r.2)

/-- `Self::from(&ModusClause { head, body: Some(e) })`, with the head conversion
`lowerHead`: one clause per body `e` lowers to. -/
def fromExpr (lowerHead : ModusLiteral → Literal) (head : ModusLiteral) :
    Expression → Nat → List Clause × Nat
  | .literal l, n =>
      let r := lowerArgs l.args n
      ([⟨lowerHead head, r.1.1 ++ [⟨l.position, l.predicate, r.1.2⟩]⟩], r.2)
  | .operatorApplication e _, n => fromExpr lowerHead head e n
  | .and e₁ e₂, n =>
      let c₁ := fromExpr lowerHead head e₁ n
      let c₂ := fromExpr lowerHead head e₂ c₁.2
      (c₁.1.flatMap fun a => c₂.1.map fun b => ⟨a.head, a.body ++ b.body⟩, c₂.2)
  | .or e₁ e₂, n =>
      let c₁ := fromExpr lowerHead head e₁ n
      let c₂ := fromExpr lowerHead head e₂ c₁.2
      (c₁.1 ++ c₂.1, c₂.2)

/-- `From<&ModusClause> for Vec<logic::Clause>`. -/
def fromModusClause (lowerHead : ModusLiteral → Literal) (c : ModusClause) (n : Nat) :
    List Clause × Nat :=
  match c.body with
  | some e => fromExpr lowerHead c.head e n
  | none => ([⟨lowerHead c.head, []⟩], n)

end Modus.Translate
