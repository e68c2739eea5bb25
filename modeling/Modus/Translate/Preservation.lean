import Modus.Translate.FormatString

/-!
# Lowering preserves meaning

A surface body holds in an interpretation `I` of the predicates under an
assignment `θ` of strings to user variables when, reading `And` as conjunction,
`Or` as disjunction and an operator application as its operand, its literals hold,
each format string standing for its interpolation under `θ`. The IR clauses that
`From<&ModusClause> for Vec<logic::Clause>` produces mean the same: the body holds
iff the body of one of the clauses holds under an assignment that gives the user
variables the values of `θ` and the auxiliary variables any values.

The proof goes up the lowering: the arguments of a literal (`lowerArgs_sound`,
`lowerArgs_complete`), then a body of any shape (`fromExpr_sound`,
`fromExpr_complete`). Soundness needs only well-formed format strings. Completeness
also needs the auxiliary variables of one clause to be distinct, which holds when
the lowering draws at most `2 ^ 32` ids; past that, the counter wraps, two
variables of a chain coincide, and a body that holds lowers to clauses none of
which can hold (`fromModusClause_wraps`).

## Main results

* `fromExpr_sound`, `fromExpr_complete` — lowering a body, by induction on it.
* `fromModusClause_preserves_meaning` — the heads of every lowering; soundness for
  well-formed format strings; the meaning of the body within `2 ^ 32` draws.
* `fromModusClause_wraps` — a format string of `2 ^ 31` expansions breaks completeness.
-/

namespace Modus.Translate

open Modus.Logic

/-! ## The meaning of a surface body -/

/-- The value of a surface term under `θ`: a format string is its interpolation. -/
def ModusTerm.value (θ : String → String) : ModusTerm → String
  | .constant c => c
  | .formatString s => ⟨interpolate θ s.data⟩
  | .userVariable v => θ v

/-- A surface body holds in `I` under `θ`. -/
def ExprHolds (I : String → List String → Prop) (θ : String → String) : Expression → Prop
  | .literal l => AtomHolds I l.predicate (l.args.map (·.value θ))
  | .and e₁ e₂ => ExprHolds I θ e₁ ∧ ExprHolds I θ e₂
  | .or e₁ e₂ => ExprHolds I θ e₁ ∨ ExprHolds I θ e₂
  | .operatorApplication e _ => ExprHolds I θ e

/-- A surface term that is no format string, or a well-formed one. -/
def ModusTerm.formatsWellFormed : ModusTerm → Bool
  | .formatString s => wellFormed s.data
  | _ => true

/-- The format strings in the literals of a body are well formed. -/
def Expression.formatsWellFormed : Expression → Bool
  | .literal l => l.args.all ModusTerm.formatsWellFormed
  | .and e₁ e₂ => e₁.formatsWellFormed && e₂.formatsWellFormed
  | .or e₁ e₂ => e₁.formatsWellFormed && e₂.formatsWellFormed
  | .operatorApplication e _ => e.formatsWellFormed

/-! ## The arguments of a literal -/

section Args

variable {I : String → List String → Prop}

theorem le_lowerArgs_snd : ∀ (ts : List ModusTerm) (n : Nat), n ≤ (lowerArgs ts n).2
  | [], _ => le_rfl
  | .constant _ :: ts, n => le_lowerArgs_snd ts n
  | .userVariable _ :: ts, n => le_lowerArgs_snd ts n
  | .formatString _ :: ts, _ => lt_convertFormatString_snd.le.trans (le_lowerArgs_snd ts _)

/-- The chains and the arguments of a literal are drawn in its window. -/
theorem lowerArgs_drawnIn : ∀ (ts : List ModusTerm) (n : Nat),
    LitsDrawnIn n (lowerArgs ts n).2 (lowerArgs ts n).1.1 ∧
      ∀ t ∈ (lowerArgs ts n).1.2, DrawnIn n (lowerArgs ts n).2 t
  | [], _ => ⟨fun _ h => (nomatch h), fun _ h => (nomatch h)⟩
  | .constant c :: ts, n => by
      obtain ⟨hLits, hArgs⟩ := lowerArgs_drawnIn ts n
      refine ⟨hLits, fun t ht => ?_⟩
      rcases List.mem_cons.mp ht with rfl | ht
      exacts [drawnIn_constant c, hArgs t ht]
  | .userVariable v :: ts, n => by
      obtain ⟨hLits, hArgs⟩ := lowerArgs_drawnIn ts n
      refine ⟨hLits, fun t ht => ?_⟩
      rcases List.mem_cons.mp ht with rfl | ht
      exacts [drawnIn_userVariable v, hArgs t ht]
  | .formatString s :: ts, n => by
      obtain ⟨hChain, hVar⟩ := convertFormatString_drawnIn (s := s) (n := n)
      obtain ⟨hLits, hArgs⟩ := lowerArgs_drawnIn ts (convertFormatString s n).2
      have hle := le_lowerArgs_snd ts (convertFormatString s n).2
      have hlt := lt_convertFormatString_snd (s := s) (n := n)
      refine ⟨fun l hl => ?_, fun t ht => ?_⟩
      · rcases List.mem_append.mp hl with hl | hl
        · exact fun t ht => (hChain l hl t ht).mono le_rfl hle
        · exact fun t ht => (hLits l hl t ht).mono hlt.le le_rfl
      · rcases List.mem_cons.mp ht with rfl | ht
        · exact hVar.mono le_rfl hle
        · exact (hArgs t ht).mono hlt.le le_rfl

/-- **The arguments are sound**: when the chains hold, the arguments are the
values of the surface terms. -/
theorem lowerArgs_sound {ρ : IRTerm → String} : ∀ (ts : List ModusTerm) (n : Nat),
    (∀ t ∈ ts, t.formatsWellFormed) → (∀ l ∈ (lowerArgs ts n).1.1, LitHolds I ρ l) →
    (lowerArgs ts n).1.2.map (·.ground ρ) = ts.map (·.value (userAssignment ρ))
  | [], _, _, _ => rfl
  | .constant c :: ts, n, hWF, hBody =>
      congrArg (c :: ·) (lowerArgs_sound ts n (fun t ht => hWF t (.tail _ ht)) hBody)
  | .userVariable v :: ts, n, hWF, hBody =>
      congrArg (ρ (.userVariable v) :: ·)
        (lowerArgs_sound ts n (fun t ht => hWF t (.tail _ ht)) hBody)
  | .formatString s :: ts, n, hWF, hBody => by
      have hVar := convertFormatString_sound (hWF _ (.head _)) fun l hl =>
        hBody l (List.mem_append_left _ hl)
      have hRest := lowerArgs_sound ts _ (fun t ht => hWF t (.tail _ ht)) fun l hl =>
        hBody l (List.mem_append_right _ hl)
      exact congrArg₂ (· :: ·) hVar hRest

/-- **The arguments are complete**: if the literal draws at most `2 ^ 32` ids, any
assignment can be changed on them alone so that the chains hold. -/
theorem lowerArgs_complete : ∀ (ts : List ModusTerm) (n : Nat),
    (lowerArgs ts n).2 ≤ n + 2 ^ 32 → ∀ ρ : IRTerm → String,
    ∃ ρ', AgreeOff n (lowerArgs ts n).2 ρ ρ' ∧ ∀ l ∈ (lowerArgs ts n).1.1, LitHolds I ρ' l
  | [], _, _, ρ => ⟨ρ, AgreeOff.refl ρ, fun _ h => nomatch h⟩
  | .constant _ :: ts, n, hDraws, ρ => lowerArgs_complete ts n hDraws ρ
  | .userVariable _ :: ts, n, hDraws, ρ => lowerArgs_complete ts n hDraws ρ
  | .formatString s :: ts, n, hDraws, ρ => by
      have hDraws' : (lowerArgs ts (convertFormatString s n).2).2 ≤ n + 2 ^ 32 := hDraws
      have hlt := lt_convertFormatString_snd (s := s) (n := n)
      have hle := le_lowerArgs_snd ts (convertFormatString s n).2
      obtain ⟨ρ₁, h₁, hChain⟩ := convertFormatString_complete (I := I) (s := s) (n := n) (by omega) ρ
      obtain ⟨ρ₂, h₂, hRest⟩ := lowerArgs_complete ts (convertFormatString s n).2 (by omega) ρ₁
      refine ⟨ρ₂, h₁.trans h₂ hlt.le hle, fun l hl => ?_⟩
      rcases List.mem_append.mp hl with hl | hl
      · exact h₂.litHolds convertFormatString_drawnIn.1 le_rfl (by omega) hChain l hl
      · exact hRest l hl

end Args

/-! ## A body of any shape -/

section Body

variable (lowerHead : ModusLiteral → Literal) (head : ModusLiteral) {I : String → List String → Prop}

theorem fromExpr_head (e : Expression) (n : Nat) :
    ∀ cl ∈ (fromExpr lowerHead head e n).1, cl.head = lowerHead head := by
  induction e generalizing n with
  | literal l => simp [fromExpr]
  | operatorApplication e _ ih => exact ih n
  | and e₁ e₂ ih₁ _ =>
      intro cl hcl
      obtain ⟨a, ha, b, -, rfl⟩ := by simpa only [fromExpr, List.mem_flatMap, List.mem_map] using hcl
      exact ih₁ n a ha
  | or e₁ e₂ ih₁ ih₂ =>
      intro cl hcl
      rcases List.mem_append.mp hcl with hcl | hcl
      exacts [ih₁ n cl hcl, ih₂ _ cl hcl]

theorem le_fromExpr_snd (e : Expression) (n : Nat) : n ≤ (fromExpr lowerHead head e n).2 := by
  induction e generalizing n with
  | literal l => exact le_lowerArgs_snd l.args n
  | operatorApplication e _ ih => exact ih n
  | and e₁ e₂ ih₁ ih₂ => exact (ih₁ n).trans (ih₂ _)
  | or e₁ e₂ ih₁ ih₂ => exact (ih₁ n).trans (ih₂ _)

/-- Every body is drawn in the window of the whole lowering. -/
theorem fromExpr_drawnIn (e : Expression) (n : Nat) :
    ∀ cl ∈ (fromExpr lowerHead head e n).1, LitsDrawnIn n (fromExpr lowerHead head e n).2 cl.body := by
  induction e generalizing n with
  | literal l =>
      obtain ⟨hLits, hArgs⟩ := lowerArgs_drawnIn l.args n
      intro cl hcl l' hl'
      rw [List.mem_singleton.mp hcl] at hl'
      rcases List.mem_append.mp hl' with hl' | hl'
      · exact hLits l' hl'
      · rw [List.mem_singleton.mp hl']; exact hArgs
  | operatorApplication e _ ih => exact ih n
  | and e₁ e₂ ih₁ ih₂ =>
      have hle₁ := le_fromExpr_snd lowerHead head e₁ n
      have hle₂ := le_fromExpr_snd lowerHead head e₂ (fromExpr lowerHead head e₁ n).2
      intro cl hcl
      obtain ⟨a, ha, b, hb, rfl⟩ := by simpa only [fromExpr, List.mem_flatMap, List.mem_map] using hcl
      intro l hl
      rcases List.mem_append.mp hl with hl | hl
      · exact (ih₁ n a ha).mono le_rfl hle₂ l hl
      · exact (ih₂ _ b hb).mono hle₁ le_rfl l hl
  | or e₁ e₂ ih₁ ih₂ =>
      have hle₁ := le_fromExpr_snd lowerHead head e₁ n
      have hle₂ := le_fromExpr_snd lowerHead head e₂ (fromExpr lowerHead head e₁ n).2
      intro cl hcl
      rcases List.mem_append.mp hcl with hcl | hcl
      · exact (ih₁ n cl hcl).mono le_rfl hle₂
      · exact (ih₂ _ cl hcl).mono hle₁ le_rfl

/-- **Lowering is sound**: a clause whose body holds makes the surface body hold
under the user variables' values. -/
theorem fromExpr_sound {ρ : IRTerm → String} (e : Expression) (n : Nat)
    (hWF : e.formatsWellFormed) :
    ∀ cl ∈ (fromExpr lowerHead head e n).1, (∀ l ∈ cl.body, LitHolds I ρ l) →
      ExprHolds I (userAssignment ρ) e := by
  induction e generalizing n with
  | literal l =>
      intro cl hcl hBody
      rw [List.mem_singleton.mp hcl] at hBody
      have hArgs := lowerArgs_sound l.args n (List.all_eq_true.mp hWF)
        fun l' hl' => hBody l' (List.mem_append_left _ hl')
      have hLit := hBody _ (List.mem_append_right _ (List.mem_singleton_self _))
      rwa [LitHolds, hArgs] at hLit
  | operatorApplication e _ ih => exact ih n hWF
  | and e₁ e₂ ih₁ ih₂ =>
      simp only [Expression.formatsWellFormed, Bool.and_eq_true] at hWF
      intro cl hcl hBody
      obtain ⟨a, ha, b, hb, rfl⟩ := by simpa only [fromExpr, List.mem_flatMap, List.mem_map] using hcl
      exact ⟨ih₁ n hWF.1 a ha fun l hl => hBody l (List.mem_append_left _ hl),
        ih₂ _ hWF.2 b hb fun l hl => hBody l (List.mem_append_right _ hl)⟩
  | or e₁ e₂ ih₁ ih₂ =>
      simp only [Expression.formatsWellFormed, Bool.and_eq_true] at hWF
      intro cl hcl hBody
      rcases List.mem_append.mp hcl with hcl | hcl
      exacts [.inl (ih₁ n hWF.1 cl hcl hBody), .inr (ih₂ _ hWF.2 cl hcl hBody)]

/-- **Lowering is complete**: if the lowering draws at most `2 ^ 32` ids and the
surface body holds under the user variables' values, some clause's body holds
once the drawn variables are given the right values. -/
theorem fromExpr_complete (e : Expression) (n : Nat) (hWF : e.formatsWellFormed)
    (hDraws : (fromExpr lowerHead head e n).2 ≤ n + 2 ^ 32) (ρ : IRTerm → String)
    (hHolds : ExprHolds I (userAssignment ρ) e) :
    ∃ cl ∈ (fromExpr lowerHead head e n).1, ∃ ρ', AgreeOff n (fromExpr lowerHead head e n).2 ρ ρ' ∧
      ∀ l ∈ cl.body, LitHolds I ρ' l := by
  induction e generalizing n ρ with
  | literal l =>
      obtain ⟨ρ', hAgree, hLits⟩ := lowerArgs_complete (I := I) l.args n hDraws ρ
      have hArgs := lowerArgs_sound l.args n (List.all_eq_true.mp hWF) hLits
      refine ⟨_, List.mem_singleton_self _, ρ', hAgree, fun l' hl' => ?_⟩
      rcases List.mem_append.mp hl' with hl' | hl'
      · exact hLits l' hl'
      · rw [List.mem_singleton.mp hl', LitHolds, hArgs, hAgree.userAssignment]
        exact hHolds
  | operatorApplication e _ ih => exact ih n hWF hDraws ρ hHolds
  | and e₁ e₂ ih₁ ih₂ =>
      simp only [Expression.formatsWellFormed, Bool.and_eq_true] at hWF
      have hle₁ := le_fromExpr_snd lowerHead head e₁ n
      have hle₂ := le_fromExpr_snd lowerHead head e₂ (fromExpr lowerHead head e₁ n).2
      have hDraws' : (fromExpr lowerHead head e₂ (fromExpr lowerHead head e₁ n).2).2 ≤ n + 2 ^ 32 :=
        hDraws
      obtain ⟨a, ha, ρ₁, h₁, hA⟩ := ih₁ n hWF.1 (by omega) ρ hHolds.1
      obtain ⟨b, hb, ρ₂, h₂, hB⟩ := ih₂ (fromExpr lowerHead head e₁ n).2 hWF.2 (by omega) ρ₁
        (h₁.userAssignment ▸ hHolds.2)
      refine ⟨⟨a.head, a.body ++ b.body⟩,
        List.mem_flatMap.mpr ⟨a, ha, List.mem_map.mpr ⟨b, hb, rfl⟩⟩, ρ₂, h₁.trans h₂ hle₁ hle₂,
        fun l hl => ?_⟩
      rcases List.mem_append.mp hl with hl | hl
      · exact h₂.litHolds (fromExpr_drawnIn lowerHead head e₁ n a ha) le_rfl (by omega) hA l hl
      · exact hB l hl
  | or e₁ e₂ ih₁ ih₂ =>
      simp only [Expression.formatsWellFormed, Bool.and_eq_true] at hWF
      have hle₁ := le_fromExpr_snd lowerHead head e₁ n
      have hle₂ := le_fromExpr_snd lowerHead head e₂ (fromExpr lowerHead head e₁ n).2
      have hDraws' : (fromExpr lowerHead head e₂ (fromExpr lowerHead head e₁ n).2).2 ≤ n + 2 ^ 32 :=
        hDraws
      rcases hHolds with hHolds | hHolds
      · obtain ⟨a, ha, ρ₁, h₁, hA⟩ := ih₁ n hWF.1 (by omega) ρ hHolds
        exact ⟨a, List.mem_append_left _ ha, ρ₁, h₁.mono le_rfl hle₂, hA⟩
      · obtain ⟨b, hb, ρ₂, h₂, hB⟩ := ih₂ (fromExpr lowerHead head e₁ n).2 hWF.2 (by omega) ρ hHolds
        exact ⟨b, List.mem_append_right _ hb, ρ₂, h₂.mono hle₁ le_rfl, hB⟩

end Body

/-! ## Lowering a clause -/

/-- From the lowered clauses back to the body: if some lowered clause has a body
that holds under an assignment extending `θ`, the body `e` holds under `θ`. This
needs only well-formed format strings, at any number of draws. -/
theorem fromModusClause_sound (lowerHead : ModusLiteral → Literal) (head : ModusLiteral)
    (e : Expression) (n : Nat) (hWF : e.formatsWellFormed) (I : String → List String → Prop)
    (θ : String → String) (h : ∃ cl ∈ (fromModusClause lowerHead ⟨head, some e⟩ n).1,
      ∃ ρ : IRTerm → String, (∀ v, ρ (.userVariable v) = θ v) ∧ ∀ l ∈ cl.body, LitHolds I ρ l) :
    ExprHolds I θ e := by
  obtain ⟨cl, hcl, ρ, hρ, hBody⟩ := h
  have hθ : userAssignment ρ = θ := funext hρ
  exact hθ ▸ fromExpr_sound lowerHead head e n hWF cl hcl hBody

/-- **Lowering preserves meaning.** Every clause lowered from `h :- e` has the
lowered head `h`. If the format strings of `e` are well formed, then for every
interpretation `I` and every assignment `θ` of the user variables, `e` holds when
the body of some lowered clause holds under some assignment that extends `θ` to the
auxiliary variables; and if moreover the lowering draws at most `2 ^ 32` ids, the
converse holds too. -/
theorem fromModusClause_preserves_meaning (lowerHead : ModusLiteral → Literal)
    (head : ModusLiteral) (e : Expression) (n : Nat) :
    (∀ cl ∈ (fromModusClause lowerHead ⟨head, some e⟩ n).1, cl.head = lowerHead head) ∧
      (e.formatsWellFormed → ∀ (I : String → List String → Prop) (θ : String → String),
        (∃ cl ∈ (fromModusClause lowerHead ⟨head, some e⟩ n).1, ∃ ρ : IRTerm → String,
          (∀ v, ρ (.userVariable v) = θ v) ∧ ∀ l ∈ cl.body, LitHolds I ρ l) → ExprHolds I θ e) ∧
      (e.formatsWellFormed → (fromModusClause lowerHead ⟨head, some e⟩ n).2 ≤ n + 2 ^ 32 →
        ∀ (I : String → List String → Prop) (θ : String → String),
          ExprHolds I θ e ↔ ∃ cl ∈ (fromModusClause lowerHead ⟨head, some e⟩ n).1,
            ∃ ρ : IRTerm → String, (∀ v, ρ (.userVariable v) = θ v) ∧
              ∀ l ∈ cl.body, LitHolds I ρ l) := by
  refine ⟨fromExpr_head lowerHead head e n, fromModusClause_sound lowerHead head e n,
    fun hWF hDraws I θ => ⟨fun hHolds => ?_, fromModusClause_sound lowerHead head e n hWF I θ⟩⟩
  -- the user variables take their values from `θ`, the others any value
  obtain ⟨cl, hcl, ρ', hAgree, hBody⟩ :=
    fromExpr_complete lowerHead head e n hWF hDraws (withUsers θ) (I := I) hHolds
  exact ⟨cl, hcl, ρ', hAgree.userVariable, hBody⟩

/-- A body with a format string, a conjunction and a disjunction. -/
theorem fromModusClause_preserves_meaning_and_or :
    let e := Expression.and (.literal ⟨none, "q", [.formatString ⟨[]⟩, .userVariable "X"]⟩)
      (.or (.literal ⟨none, "r", [.constant "c"]⟩) (.literal ⟨none, "s", [.userVariable "Y"]⟩))
    let lowerHead : ModusLiteral → Literal := fun l => ⟨l.position, l.predicate, []⟩
    e.formatsWellFormed ∧ (fromModusClause lowerHead ⟨⟨none, "h", []⟩, some e⟩ 0).2 ≤ 0 + 2 ^ 32 ∧
      (∀ cl ∈ (fromModusClause lowerHead ⟨⟨none, "h", []⟩, some e⟩ 0).1,
          cl.head = lowerHead ⟨none, "h", []⟩) ∧
        ∀ (I : String → List String → Prop) (θ : String → String),
          ExprHolds I θ e ↔ ∃ cl ∈ (fromModusClause lowerHead ⟨⟨none, "h", []⟩, some e⟩ 0).1,
            ∃ ρ : IRTerm → String, (∀ v, ρ (.userVariable v) = θ v) ∧
              ∀ l ∈ cl.body, LitHolds I ρ l := by
  intro e lowerHead
  have hWF : e.formatsWellFormed := by
    simp [e, Expression.formatsWellFormed, ModusTerm.formatsWellFormed, wellFormed]
  have hDraws : (fromModusClause lowerHead ⟨⟨none, "h", []⟩, some e⟩ 0).2 ≤ 0 + 2 ^ 32 := by
    simp [e, fromModusClause, fromExpr, lowerArgs, convertFormatString_eq]
  obtain ⟨hhead, -, hiff⟩ := fromModusClause_preserves_meaning lowerHead _ e 0
  exact ⟨hWF, hDraws, hhead, hiff hWF hDraws⟩

/-! ## The counter wraps -/

section Wrap

/-- **The counter wraps.** The body `p(f"${x}${x}…")`, with `2 ^ 31` expansions,
holds in the interpretation where every atom holds, under `x = "b"`. Lowered from
counter `0`, its chain draws `2 ^ 32 + 1` ids, so its last variable is its first,
`V₀`; the chain makes `V₀` both `""` and a string starting with `"b"`, and no
assignment makes the body of the one lowered clause hold. -/
theorem fromModusClause_wraps :
    let e := Expression.literal
      ⟨none, "p", [.formatString ⟨(List.replicate (2 ^ 31) ['$', '{', 'x', '}']).flatten⟩]⟩
    let lowerHead : ModusLiteral → Literal := fun l => ⟨l.position, l.predicate, []⟩
    ExprHolds (fun _ _ => True) (fun _ => "b") e ∧
      ¬ ∃ cl ∈ (fromModusClause lowerHead ⟨⟨none, "h", []⟩, some e⟩ 0).1, ∃ ρ : IRTerm → String,
        (∀ v, ρ (.userVariable v) = "b") ∧ ∀ l ∈ cl.body, LitHolds (fun _ _ => True) ρ l := by
  intro e lowerHead
  refine ⟨trivial, ?_⟩
  rintro ⟨cl, hcl, ρ, hρ, hBody⟩
  obtain rfl := List.mem_singleton.mp hcl
  exact replicate_chain_unsat (by rw [hρ]; decide)
    fun l hl => hBody l (List.mem_append_left _ (List.mem_append_left _ hl))

end Wrap

end Modus.Translate
