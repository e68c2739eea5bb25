import Modus.Unification

/-!
# Builtin predicates

`builtin.rs`: the three modes of `string_concat/3`, and the image markers `run/1`
and `from/1`. A builtin is chosen by `select` from a groundness mask, and its
`apply` fabricates a head literal that the engine then unifies with the goal
literal, as if the builtin were a fact.

`select` zips the arguments with the mask, so it looks at no more arguments than
the mask has; `apply` then indexes the arguments, and an index past the end
panics. A panic is the `Except.error` of `apply`, carrying the message.

## Main results

* `stringConcatResult_isGround` — every fabricated `string_concat` head is ground.
* `BuiltinPredicate.stringConcat_apply_iff` — an accepting `string_concat` mode
  fabricates a head that unifies with the literal exactly when the literal has an
  instance `string_concat(a, b, a ++ b)`, and that instance is the head.
* `BuiltinPredicate.stringConcat_resolvent_eq` — any two accepting modes give the
  same resolvent.
-/

namespace Modus.Builtin

open Modus.Logic

/-! ## Strings -/

/-- `str::strip_prefix`: the rest of `s` after `pre`, if `s` starts with `pre`. -/
def stripPrefix (s pre : String) : Option String :=
  if pre.data.isPrefixOf s.data then some ⟨s.data.drop pre.length⟩ else none

/-- `str::strip_suffix`: the part of `s` before `suf`, if `s` ends with `suf`. -/
def stripSuffix (s suf : String) : Option String :=
  if suf.data.isSuffixOf s.data then some ⟨s.data.take (s.length - suf.length)⟩ else none

theorem stripPrefix_eq_some {s pre rest : String} :
    stripPrefix s pre = some rest ↔ s = pre ++ rest := by
  simp only [stripPrefix, String.ext_iff, String.data_append]
  split
  · rename_i hp
    obtain ⟨t, ht⟩ := List.isPrefixOf_iff_prefix.mp hp
    simp only [Option.some.injEq, String.ext_iff, ← ht, String.length, List.drop_left]
    exact ⟨fun h => by rw [h], fun h => List.append_cancel_left h⟩
  · rename_i hp
    simp only [reduceCtorEq, false_iff]
    exact fun h => hp (List.isPrefixOf_iff_prefix.mpr ⟨rest.data, h.symm⟩)

theorem stripSuffix_eq_some {s suf front : String} :
    stripSuffix s suf = some front ↔ s = front ++ suf := by
  simp only [stripSuffix, String.ext_iff, String.data_append]
  split
  · rename_i hp
    obtain ⟨t, ht⟩ := List.isSuffixOf_iff_suffix.mp hp
    simp only [Option.some.injEq, String.ext_iff, ← ht, String.length, List.length_append,
      Nat.add_sub_cancel, List.take_left]
    exact ⟨fun h => by rw [h], fun h => List.append_cancel_right h⟩
  · rename_i hp
    simp only [reduceCtorEq, false_iff]
    exact fun h => hp (List.isSuffixOf_iff_suffix.mpr ⟨front.data, h.symm⟩)

/-! ## The builtins -/

/-- The builtins, in the order `select_builtin` tries them. -/
inductive BuiltinPredicate where
  | stringConcat1
  | stringConcat2
  | stringConcat3
  | run
  | «from»
  deriving DecidableEq, Repr

namespace BuiltinPredicate

/-- `BuiltinPredicate::name`. -/
def name : BuiltinPredicate → String
  | stringConcat1 | stringConcat2 | stringConcat3 => "string_concat"
  | run => "run"
  | «from» => "from"

/-- `BuiltinPredicate::arg_groundness`: `true` where a variable is allowed. -/
def argGroundness : BuiltinPredicate → List Bool
  | stringConcat1 => [false, false, true]
  | stringConcat2 => [true, false, false]
  | stringConcat3 => [false, true, false]
  | run | «from» => [false]

/-- `BuiltinPredicate::select`: the name matches and no pair of the zip of the
arguments with the mask is `(variable, false)`. The zip stops at the shorter of
the two, so arguments past the mask are not looked at. -/
def select (p : BuiltinPredicate) (lit : Literal) : Bool :=
  lit.predicate == p.name &&
    (lit.args.zip p.argGroundness).all fun (t, allowed) => !(!t.isGround && !allowed)

end BuiltinPredicate

/-- `lit.args[i]`: an index past the end panics. -/
def argAt (lit : Literal) (i : Nat) : Except String IRTerm :=
  match lit.args[i]? with
  | some t => .ok t
  | none => .error "index out of bounds"

/-- `string_concat_result`: the fabricated head `string_concat(a, b, c)`. -/
def stringConcatResult (a b c : String) : Literal :=
  ⟨none, "string_concat", [.constant a, .constant b, .constant c]⟩

/-- `StringConcat1::apply`: concatenates the first two arguments. -/
def stringConcat1Apply (lit : Literal) : Except String (Option Literal) := do
  let some a := (← argAt lit 0).asConstant | pure none
  let some b := (← argAt lit 1).asConstant | pure none
  pure (some (stringConcatResult a b (a ++ b)))

/-- `StringConcat2::apply`: splits the second argument off the end of the third. -/
def stringConcat2Apply (lit : Literal) : Except String (Option Literal) := do
  let some b := (← argAt lit 1).asConstant | pure none
  let some c := (← argAt lit 2).asConstant | pure none
  pure ((stripSuffix c b).map fun a => stringConcatResult a b c)

/-- `StringConcat3::apply`: splits the first argument off the front of the third. -/
def stringConcat3Apply (lit : Literal) : Except String (Option Literal) := do
  let some a := (← argAt lit 0).asConstant | pure none
  let some c := (← argAt lit 2).asConstant | pure none
  pure ((stripPrefix c a).map fun b => stringConcatResult a b c)

/-- The shared body of `Run::apply` and `From::apply`: the literal itself, when its
first argument is a constant. -/
def constantArgApply (lit : Literal) : Except String (Option Literal) := do
  match ← argAt lit 0 with
  | .constant _ => pure (some lit)
  | _ => pure none

/-- `Run::apply`. -/
def runApply (lit : Literal) : Except String (Option Literal) := constantArgApply lit

/-- `From::apply`. -/
def fromApply (lit : Literal) : Except String (Option Literal) := constantArgApply lit

/-- With two arguments or more, `StringConcat1::apply` cannot panic. -/
theorem stringConcat1Apply_eq (pos : Option SpannedPosition) (p : String) (t₀ t₁ : IRTerm)
    (ts : List IRTerm) :
    stringConcat1Apply ⟨pos, p, t₀ :: t₁ :: ts⟩ = .ok (t₀.asConstant.bind fun a =>
      t₁.asConstant.bind fun b => some (stringConcatResult a b (a ++ b))) := by
  cases h₀ : t₀.asConstant <;> cases h₁ : t₁.asConstant <;>
    simp [stringConcat1Apply, argAt, bind, Except.bind, pure, Except.pure, h₀, h₁]

/-- With three arguments or more, `StringConcat2::apply` cannot panic. -/
theorem stringConcat2Apply_eq (pos : Option SpannedPosition) (p : String) (t₀ t₁ t₂ : IRTerm)
    (ts : List IRTerm) :
    stringConcat2Apply ⟨pos, p, t₀ :: t₁ :: t₂ :: ts⟩ = .ok (t₁.asConstant.bind fun b =>
      t₂.asConstant.bind fun c => (stripSuffix c b).map fun a => stringConcatResult a b c) := by
  cases h₁ : t₁.asConstant <;> cases h₂ : t₂.asConstant <;>
    simp [stringConcat2Apply, argAt, bind, Except.bind, pure, Except.pure, h₁, h₂]

/-- With three arguments or more, `StringConcat3::apply` cannot panic. -/
theorem stringConcat3Apply_eq (pos : Option SpannedPosition) (p : String) (t₀ t₁ t₂ : IRTerm)
    (ts : List IRTerm) :
    stringConcat3Apply ⟨pos, p, t₀ :: t₁ :: t₂ :: ts⟩ = .ok (t₀.asConstant.bind fun a =>
      t₂.asConstant.bind fun c => (stripPrefix c a).map fun b => stringConcatResult a b c) := by
  cases h₀ : t₀.asConstant <;> cases h₂ : t₂.asConstant <;>
    simp [stringConcat3Apply, argAt, bind, Except.bind, pure, Except.pure, h₀, h₂]

namespace BuiltinPredicate

/-- `BuiltinPredicate::apply`. -/
def apply : BuiltinPredicate → Literal → Except String (Option Literal)
  | stringConcat1 => stringConcat1Apply
  | stringConcat2 => stringConcat2Apply
  | stringConcat3 => stringConcat3Apply
  | run => runApply
  | «from» => fromApply

/-- The builtin part of a resolvent in `sld::inner`: the head `apply` fabricates,
and its unifier with the literal. -/
def resolvent (p : BuiltinPredicate) (lit : Literal) :
    Except String (Option (Literal × Substitution)) :=
  (p.apply lit).map fun head? => head?.bind fun head => (head.unify lit).map (head, ·)

/-- A builtin resolvent is a head that `apply` fabricates, with its unifier with the
literal. -/
theorem resolvent_ok_some {p : BuiltinPredicate} {lit head : Literal} {mgu : Substitution} :
    p.resolvent lit = .ok (some (head, mgu)) ↔
      p.apply lit = .ok (some head) ∧ head.unify lit = some mgu := by
  unfold resolvent
  cases p.apply lit with
  | error e => simp [Except.map]
  | ok h? =>
      cases h? with
      | none => simp [Except.map]
      | some h =>
          simp only [Except.map, Except.ok.injEq, Option.bind_eq_some, Option.map_eq_some',
            Prod.mk.injEq, Option.some.injEq]
          constructor
          · rintro ⟨_, rfl, _, hu, rfl, rfl⟩; exact ⟨rfl, hu⟩
          · rintro ⟨rfl, hu⟩; exact ⟨_, rfl, mgu, hu, rfl, rfl⟩

theorem stringConcat1Apply_some {lit head : Literal}
    (h : stringConcat1Apply lit = .ok (some head)) : ∃ a b, head = stringConcatResult a b (a ++ b) := by
  obtain ⟨pos, p, _ | ⟨t₀, _ | ⟨t₁, ts⟩⟩⟩ := lit
  · cases h
  · cases t₀ <;> cases h
  · rw [stringConcat1Apply_eq] at h
    simp only [Except.ok.injEq, Option.bind_eq_some, Option.some.injEq] at h
    obtain ⟨a, -, b, -, rfl⟩ := h
    exact ⟨a, b, rfl⟩

theorem stringConcat2Apply_some {lit head : Literal}
    (h : stringConcat2Apply lit = .ok (some head)) : ∃ a b, head = stringConcatResult a b (a ++ b) := by
  obtain ⟨pos, p, _ | ⟨t₀, _ | ⟨t₁, _ | ⟨t₂, ts⟩⟩⟩⟩ := lit
  · cases h
  · cases h
  · cases t₁ <;> cases h
  · rw [stringConcat2Apply_eq] at h
    simp only [Except.ok.injEq, Option.bind_eq_some, Option.map_eq_some'] at h
    obtain ⟨b, -, c, -, a, ha, rfl⟩ := h
    exact ⟨a, b, by rw [stripSuffix_eq_some.mp ha]⟩

theorem stringConcat3Apply_some {lit head : Literal}
    (h : stringConcat3Apply lit = .ok (some head)) : ∃ a b, head = stringConcatResult a b (a ++ b) := by
  obtain ⟨pos, p, _ | ⟨t₀, _ | ⟨t₁, _ | ⟨t₂, ts⟩⟩⟩⟩ := lit
  · cases h
  · cases t₀ <;> cases h
  · cases t₀ <;> cases h
  · rw [stringConcat3Apply_eq] at h
    simp only [Except.ok.injEq, Option.bind_eq_some, Option.map_eq_some'] at h
    obtain ⟨a, -, c, -, b, hb, rfl⟩ := h
    exact ⟨a, b, by rw [stripPrefix_eq_some.mp hb]⟩

theorem constantArgApply_cons (pos : Option SpannedPosition) (p : String) (t : IRTerm)
    (ts : List IRTerm) : constantArgApply ⟨pos, p, t :: ts⟩ =
      .ok (match t with | .constant _ => some ⟨pos, p, t :: ts⟩ | _ => none) := by
  cases t <;> simp [constantArgApply, argAt, bind, Except.bind, pure, Except.pure]

theorem constantArgApply_some {lit head : Literal} (h : constantArgApply lit = .ok (some head)) :
    head = lit ∧ ∃ c ts, lit.args = .constant c :: ts := by
  obtain ⟨pos, p, _ | ⟨t₀, ts⟩⟩ := lit
  · cases h
  · rw [constantArgApply_cons] at h
    cases t₀ <;> simp only [Except.ok.injEq, reduceCtorEq, Option.some.injEq] at h
    exact ⟨h.symm, _, ts, rfl⟩

/-- What `apply` fabricates, at any arity: `string_concat(a, b, a ++ b)` for a
`string_concat` mode, and for `run` and `from` the literal itself, whose first
argument is a constant. -/
theorem apply_eq_ok_some {p : BuiltinPredicate} {lit head : Literal}
    (h : p.apply lit = .ok (some head)) :
    (p.name = "string_concat" ∧ ∃ a b, head = stringConcatResult a b (a ++ b)) ∨
      ((p = run ∨ p = «from») ∧ head = lit ∧ ∃ c ts, lit.args = .constant c :: ts) := by
  cases p with
  | stringConcat1 => exact .inl ⟨rfl, stringConcat1Apply_some h⟩
  | stringConcat2 => exact .inl ⟨rfl, stringConcat2Apply_some h⟩
  | stringConcat3 => exact .inl ⟨rfl, stringConcat3Apply_some h⟩
  | run => exact .inr ⟨.inl rfl, constantArgApply_some h⟩
  | «from» => exact .inr ⟨.inr rfl, constantArgApply_some h⟩

end BuiltinPredicate

/-! ## Selecting a builtin -/

/-- `SelectBuiltinResult`. -/
inductive SelectBuiltinResult where
  | «match»
  | groundnessMismatch
  | noMatch
  deriving DecidableEq, Repr

/-- The builtins in declaration order. -/
def builtins : List BuiltinPredicate := [.stringConcat1, .stringConcat2, .stringConcat3, .run, .«from»]

/-- `select_builtin`: the first builtin whose `select` accepts the literal, as the
macro `select_builtins!` tries them. Modelled from the spec (§4.2, open question 2)
where the source returns only an `Option`: without a match, the outcome is
`GroundnessMismatch` if some builtin has the literal's name and `NoMatch` otherwise. -/
def selectBuiltin (lit : Literal) : SelectBuiltinResult × Option BuiltinPredicate :=
  match builtins.find? (·.select lit) with
  | some p => (.«match», some p)
  | none => (if builtins.any (·.name == lit.predicate) then .groundnessMismatch else .noMatch, none)

/-! ## `string_concat` -/

theorem stringConcatResult_isGround (a b c : String) :
    ∀ t ∈ (stringConcatResult a b c).args, t.isGround = true := by
  simp [stringConcatResult]

/-- An instance `string_concat(a, b, c)` of a three-argument `string_concat` literal
is a substitution sending the arguments to `a`, `b` and `c`. -/
theorem isInstance_stringConcatResult {pos : Option SpannedPosition} {t₀ t₁ t₂ : IRTerm}
    {a b c : String} :
    IsInstance (stringConcatResult a b c) ⟨pos, "string_concat", [t₀, t₁, t₂]⟩ ↔
      ∃ σ : Substitution, t₀.substitute σ = .constant a ∧ t₁.substitute σ = .constant b ∧
        t₂.substitute σ = .constant c := by
  simp [IsInstance, Literal.eqIgnoringPosition, stringConcatResult, Literal.substitute]

/-- A ground argument is its own instance. -/
private theorem eq_of_substitute_eq {t : IRTerm} {σ : Substitution} {c : String}
    (hg : t.isGround = true) (h : t.substitute σ = .constant c) : t = .constant c := by
  rwa [IRTerm.substitute_of_isGround hg] at h

namespace BuiltinPredicate

theorem name_eq_stringConcat {m : BuiltinPredicate} :
    m.name = "string_concat" ↔ m = stringConcat1 ∨ m = stringConcat2 ∨ m = stringConcat3 := by
  cases m <;> decide

/-- A `string_concat` mode accepts exactly the literals ground where its mask says so. -/
private theorem select_stringConcat {m : BuiltinPredicate} {pos : Option SpannedPosition}
    {t₀ t₁ t₂ : IRTerm} (hsel : m.select ⟨pos, "string_concat", [t₀, t₁, t₂]⟩ = true) :
    (m = stringConcat1 → t₀.isGround ∧ t₁.isGround) ∧
      (m = stringConcat2 → t₁.isGround ∧ t₂.isGround) ∧
      (m = stringConcat3 → t₀.isGround ∧ t₂.isGround) := by
  refine ⟨?_, ?_, ?_⟩ <;> rintro rfl <;> simp_all [select, argGroundness]

/-- What an accepting mode fabricates is `string_concat(a, b, a ++ b)`. -/
private theorem apply_eq_some {m : BuiltinPredicate} {pos : Option SpannedPosition}
    {t₀ t₁ t₂ : IRTerm} {h : Literal} (hm : m.name = "string_concat")
    (happ : m.apply ⟨pos, "string_concat", [t₀, t₁, t₂]⟩ = .ok (some h)) :
    ∃ a b, h = stringConcatResult a b (a ++ b) := by
  obtain rfl | rfl | rfl := name_eq_stringConcat.mp hm
  · simp only [apply, stringConcat1Apply_eq, Except.ok.injEq, Option.bind_eq_some] at happ
    obtain ⟨a, -, b, -, hh⟩ := happ
    exact ⟨a, b, (Option.some.inj hh).symm⟩
  · simp only [apply, stringConcat2Apply_eq, Except.ok.injEq, Option.bind_eq_some,
      Option.map_eq_some'] at happ
    obtain ⟨b, -, c, -, a, hs, rfl⟩ := happ
    exact ⟨a, b, by rw [stripSuffix_eq_some.mp hs]⟩
  · simp only [apply, stringConcat3Apply_eq, Except.ok.injEq, Option.bind_eq_some,
      Option.map_eq_some'] at happ
    obtain ⟨a, -, c, -, b, hs, rfl⟩ := happ
    exact ⟨a, b, by rw [stripPrefix_eq_some.mp hs]⟩

/-- An accepting mode fabricates every instance `string_concat(a, b, a ++ b)` of the
literal. -/
private theorem apply_of_isInstance {m : BuiltinPredicate} {pos : Option SpannedPosition}
    {t₀ t₁ t₂ : IRTerm} {a b : String} (hm : m.name = "string_concat")
    (hsel : m.select ⟨pos, "string_concat", [t₀, t₁, t₂]⟩ = true)
    (hinst : IsInstance (stringConcatResult a b (a ++ b)) ⟨pos, "string_concat", [t₀, t₁, t₂]⟩) :
    m.apply ⟨pos, "string_concat", [t₀, t₁, t₂]⟩ = .ok (some (stringConcatResult a b (a ++ b))) := by
  obtain ⟨σ, h₀, h₁, h₂⟩ := isInstance_stringConcatResult.mp hinst
  obtain ⟨hs₁, hs₂, hs₃⟩ := select_stringConcat hsel
  obtain rfl | rfl | rfl := name_eq_stringConcat.mp hm
  · obtain ⟨g₀, g₁⟩ := hs₁ rfl
    rw [eq_of_substitute_eq g₀ h₀, eq_of_substitute_eq g₁ h₁]
    simp [apply, stringConcat1Apply_eq]
  · obtain ⟨g₁, g₂⟩ := hs₂ rfl
    rw [eq_of_substitute_eq g₁ h₁, eq_of_substitute_eq g₂ h₂]
    simp [apply, stringConcat2Apply_eq, stripSuffix_eq_some.mpr rfl]
  · obtain ⟨g₀, g₂⟩ := hs₃ rfl
    rw [eq_of_substitute_eq g₀ h₀, eq_of_substitute_eq g₂ h₂]
    simp [apply, stringConcat3Apply_eq, stripPrefix_eq_some.mpr rfl]

/-- **Soundness and completeness of a `string_concat` mode.** An accepting mode
fabricates a head that unifies with the literal exactly when the head is an
instance `string_concat(a, b, a ++ b)` of the literal. -/
theorem stringConcat_apply_iff {m : BuiltinPredicate} {pos : Option SpannedPosition}
    {t₀ t₁ t₂ : IRTerm} (hm : m.name = "string_concat")
    (hsel : m.select ⟨pos, "string_concat", [t₀, t₁, t₂]⟩ = true) (h : Literal) :
    (m.apply ⟨pos, "string_concat", [t₀, t₁, t₂]⟩ = .ok (some h) ∧
        (h.unify ⟨pos, "string_concat", [t₀, t₁, t₂]⟩).isSome) ↔
      ∃ a b, h = stringConcatResult a b (a ++ b) ∧
        IsInstance h ⟨pos, "string_concat", [t₀, t₁, t₂]⟩ := by
  constructor
  · rintro ⟨happ, hu⟩
    obtain ⟨a, b, rfl⟩ := apply_eq_some hm happ
    exact ⟨a, b, rfl, (Literal.unify_isSome_iff (stringConcatResult_isGround _ _ _)).mp hu⟩
  · rintro ⟨a, b, rfl, hinst⟩
    exact ⟨apply_of_isInstance hm hsel hinst,
      (Literal.unify_isSome_iff (stringConcatResult_isGround _ _ _)).mpr hinst⟩

/-- On three arguments, a `string_concat` mode does not panic. -/
private theorem apply_isOk {m : BuiltinPredicate} (hm : m.name = "string_concat")
    (pos : Option SpannedPosition) (t₀ t₁ t₂ : IRTerm) :
    ∃ o, m.apply ⟨pos, "string_concat", [t₀, t₁, t₂]⟩ = .ok o := by
  obtain rfl | rfl | rfl := name_eq_stringConcat.mp hm <;>
    simp [apply, stringConcat1Apply_eq, stringConcat2Apply_eq, stringConcat3Apply_eq]

/-- The resolvent of an accepting mode, described without naming the mode. -/
private theorem resolvent_eq_ok_some {m : BuiltinPredicate} {pos : Option SpannedPosition}
    {t₀ t₁ t₂ : IRTerm} (hm : m.name = "string_concat")
    (hsel : m.select ⟨pos, "string_concat", [t₀, t₁, t₂]⟩ = true) (r : Literal × Substitution) :
    m.resolvent ⟨pos, "string_concat", [t₀, t₁, t₂]⟩ = .ok (some r) ↔
      (∃ a b, r.1 = stringConcatResult a b (a ++ b) ∧
        IsInstance r.1 ⟨pos, "string_concat", [t₀, t₁, t₂]⟩) ∧
      r.1.unify ⟨pos, "string_concat", [t₀, t₁, t₂]⟩ = some r.2 := by
  obtain ⟨o, ho⟩ := apply_isOk hm pos t₀ t₁ t₂
  rw [← stringConcat_apply_iff hm hsel, resolvent, ho]
  obtain ⟨h, mgu⟩ := r
  cases o <;> simp [Except.map, Option.bind_eq_some, Option.map_eq_some', ho]
  constructor
  · rintro ⟨hu, rfl⟩; exact ⟨⟨rfl, by simp [hu]⟩, hu⟩
  · rintro ⟨⟨rfl, -⟩, hu⟩; exact ⟨hu, rfl⟩

/-- **Mode agreement.** Any two modes that accept a `string_concat` literal give
the same builtin resolvent. -/
theorem stringConcat_resolvent_eq {m₁ m₂ : BuiltinPredicate} {pos : Option SpannedPosition}
    {t₀ t₁ t₂ : IRTerm} (hm₁ : m₁.name = "string_concat") (hm₂ : m₂.name = "string_concat")
    (hsel₁ : m₁.select ⟨pos, "string_concat", [t₀, t₁, t₂]⟩ = true)
    (hsel₂ : m₂.select ⟨pos, "string_concat", [t₀, t₁, t₂]⟩ = true) :
    m₁.resolvent ⟨pos, "string_concat", [t₀, t₁, t₂]⟩ =
      m₂.resolvent ⟨pos, "string_concat", [t₀, t₁, t₂]⟩ := by
  obtain ⟨o₁, ho₁⟩ := apply_isOk hm₁ pos t₀ t₁ t₂
  obtain ⟨o₂, ho₂⟩ := apply_isOk hm₂ pos t₀ t₁ t₂
  have hok₁ : ∃ ρ, m₁.resolvent ⟨pos, "string_concat", [t₀, t₁, t₂]⟩ = .ok ρ := by
    simp [resolvent, ho₁, Except.map]
  have hok₂ : ∃ ρ, m₂.resolvent ⟨pos, "string_concat", [t₀, t₁, t₂]⟩ = .ok ρ := by
    simp [resolvent, ho₂, Except.map]
  obtain ⟨ρ₁, hρ₁⟩ := hok₁
  obtain ⟨ρ₂, hρ₂⟩ := hok₂
  rw [hρ₁, hρ₂]
  congr 1
  refine Option.ext fun r => ?_
  rw [Option.mem_def, Option.mem_def, ← Except.ok.injEq, ← hρ₁, resolvent_eq_ok_some hm₁ hsel₁, ← resolvent_eq_ok_some hm₂ hsel₂,
    hρ₂, Except.ok.injEq]

end BuiltinPredicate

/-- The builtin `select_builtin` picks accepts the literal. -/
theorem selectBuiltin_select {lit : Literal} {p : BuiltinPredicate}
    (h : (selectBuiltin lit).2 = some p) : p.select lit = true := by
  unfold selectBuiltin at h
  split at h
  · rename_i hfind; cases h; have hsel := List.find?_some hfind; exact hsel
  · cases h

/-- A builtin that accepts a literal carries the literal's name. -/
theorem BuiltinPredicate.name_eq_of_select {p : BuiltinPredicate} {lit : Literal}
    (h : p.select lit = true) : p.name = lit.predicate := by
  simp only [BuiltinPredicate.select, Bool.and_eq_true, beq_iff_eq] at h
  exact h.1.symm

/-! ## Arity -/

namespace BuiltinPredicate

/-- What `select` checks: the name, and the mask on the arguments the zip pairs with
it. The zip stops at the shorter of the two, so the number of arguments is not
checked. -/
theorem select_eq_true_iff {p : BuiltinPredicate} {lit : Literal} :
    p.select lit = true ↔ lit.predicate = p.name ∧
      ∀ t allowed, (t, allowed) ∈ lit.args.zip p.argGroundness → allowed = false →
        t.isGround = true := by
  simp [select, List.all_eq_true]

/-- With at least as many arguments as its mask, a builtin's `apply` does not panic:
it indexes no argument past the mask. -/
theorem apply_ok_of_arity {p : BuiltinPredicate} {lit : Literal}
    (h : p.argGroundness.length ≤ lit.args.length) : ∃ o, p.apply lit = .ok o := by
  obtain ⟨pos, pred, args⟩ := lit
  have hmode : ∀ t₀ t₁ t₂ ts, args = t₀ :: t₁ :: t₂ :: ts → ∃ o, p.apply ⟨pos, pred, args⟩ = .ok o := by
    rintro t₀ t₁ t₂ ts rfl
    cases p with
    | stringConcat1 => exact ⟨_, stringConcat1Apply_eq pos pred t₀ t₁ (t₂ :: ts)⟩
    | stringConcat2 => exact ⟨_, stringConcat2Apply_eq pos pred t₀ t₁ t₂ ts⟩
    | stringConcat3 => exact ⟨_, stringConcat3Apply_eq pos pred t₀ t₁ t₂ ts⟩
    | run | «from» => exact ⟨_, constantArgApply_cons pos pred t₀ _⟩
  rcases args with _ | ⟨t₀, _ | ⟨t₁, _ | ⟨t₂, ts⟩⟩⟩
  · cases p <;> simp [argGroundness] at h
  · cases p <;> first | exact ⟨_, constantArgApply_cons pos pred t₀ _⟩ | simp [argGroundness] at h
  · cases p <;> first | exact ⟨_, constantArgApply_cons pos pred t₀ _⟩ | simp [argGroundness] at h
  · exact hmode _ _ _ _ rfl

end BuiltinPredicate

/-- `select_builtin` does not check arity: it picks `run` for `run("a", X)`, whose
`apply` returns the literal, so the builtin resolves it as a fact; and it picks the
first `string_concat` mode for `string_concat("a")`, whose `apply` indexes a second
argument and panics. -/
theorem selectBuiltin_ignores_arity :
    (selectBuiltin ⟨none, "run", [.constant "a", .userVariable "X"]⟩).2 = some .run ∧
      BuiltinPredicate.run.resolvent ⟨none, "run", [.constant "a", .userVariable "X"]⟩ =
        .ok (some (⟨none, "run", [.constant "a", .userVariable "X"]⟩, [])) ∧
      (selectBuiltin ⟨none, "string_concat", [.constant "a"]⟩).2 = some .stringConcat1 ∧
      BuiltinPredicate.stringConcat1.apply ⟨none, "string_concat", [.constant "a"]⟩ =
        .error "index out of bounds" :=
  ⟨by decide, rfl, by decide, rfl⟩

/-- **The `string_concat` modes are sound, complete and interchangeable.** Every
accepting mode fabricates a head unifying with the literal exactly when the head is
an instance `string_concat(a, b, a ++ b)` of it, with three constant arguments; any
two accepting modes give the same resolvent; so the mode `select_builtin` picks
changes nothing. -/
theorem stringConcat_modes_consistent (pos : Option SpannedPosition) (t₀ t₁ t₂ : IRTerm) :
    (∀ m : BuiltinPredicate, m.name = "string_concat" →
        m.select ⟨pos, "string_concat", [t₀, t₁, t₂]⟩ = true → ∀ h : Literal,
        (m.apply ⟨pos, "string_concat", [t₀, t₁, t₂]⟩ = .ok (some h) ∧
            (h.unify ⟨pos, "string_concat", [t₀, t₁, t₂]⟩).isSome) ↔
          ∃ a b, h = ⟨none, "string_concat", [.constant a, .constant b, .constant (a ++ b)]⟩ ∧
            IsInstance h ⟨pos, "string_concat", [t₀, t₁, t₂]⟩) ∧
      (∀ m₁ m₂ : BuiltinPredicate, m₁.name = "string_concat" → m₂.name = "string_concat" →
        m₁.select ⟨pos, "string_concat", [t₀, t₁, t₂]⟩ = true →
        m₂.select ⟨pos, "string_concat", [t₀, t₁, t₂]⟩ = true →
        m₁.resolvent ⟨pos, "string_concat", [t₀, t₁, t₂]⟩ =
          m₂.resolvent ⟨pos, "string_concat", [t₀, t₁, t₂]⟩) ∧
      (∀ p m : BuiltinPredicate,
        (selectBuiltin ⟨pos, "string_concat", [t₀, t₁, t₂]⟩).2 = some p →
        m.name = "string_concat" → m.select ⟨pos, "string_concat", [t₀, t₁, t₂]⟩ = true →
        p.resolvent ⟨pos, "string_concat", [t₀, t₁, t₂]⟩ =
          m.resolvent ⟨pos, "string_concat", [t₀, t₁, t₂]⟩) := by
  refine ⟨fun m hm hsel => BuiltinPredicate.stringConcat_apply_iff hm hsel,
    fun m₁ m₂ hm₁ hm₂ => BuiltinPredicate.stringConcat_resolvent_eq hm₁ hm₂,
    fun p m hp hm hsel => ?_⟩
  have hpsel := selectBuiltin_select hp
  exact BuiltinPredicate.stringConcat_resolvent_eq (BuiltinPredicate.name_eq_of_select hpsel) hm
    hpsel hsel

end Modus.Builtin
