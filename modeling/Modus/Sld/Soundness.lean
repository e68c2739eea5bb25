import Modus.Sld.Derivation

/-!
# Soundness of SLD resolution

A ground atom is a consequence of a program (`Entails`) when it is a builtin fact,
`string_concat(a, b, a ++ b)`, `run(c)` or `from(c)`, or the head of a ground
instance of a rule whose body atoms are consequences. Every edge of a derivation
tree resolves the selected literal with a clause all of whose instances are
consequences, so by induction over the tree every goal literal, under the unifier
of any root-to-leaf path, holds under every ground assignment (`tree_sound`).

`select` reads a builtin's argument mask through a zip that stops at the shorter
list, so it also accepts `run` and `from` literals with more than one argument, and
`Run::apply` returns such a literal unchanged. The soundness theorem therefore
assumes that `run` and `from` occur with one argument (`BuiltinArity`);
`sld_run_unsound` is the run that shows the assumption is needed.

## Main results

* `Edge.sound` — an edge derives the selected literal from the applied body.
* `tree_sound` — the goal literals of a derivation tree hold under its paths' unifiers.
* `sld_sound` — every answer of `sld` holds under every ground assignment.
* `sld_run_unsound` — without the arity assumption, `run("a", X)` is answered.
-/

namespace Modus.Sld

open Modus.Logic Modus.Builtin

/-! ## Consequences of a program -/

/-- The ground atoms a program entails together with the builtin relations. -/
inductive Entails (rules : List Clause) : String → List String → Prop
  | stringConcat (a b : String) : Entails rules "string_concat" [a, b, a ++ b]
  | run (c : String) : Entails rules "run" [c]
  | «from» (c : String) : Entails rules "from" [c]
  | rule {c : Clause} (hc : c ∈ rules) (θ : IRTerm → String)
      (hbody : ∀ l ∈ c.body, Entails rules l.predicate (l.args.map (·.ground θ))) :
      Entails rules c.head.predicate (c.head.args.map (·.ground θ))

/-- A literal holds under `θ` when its ground instance is entailed. -/
def Holds (rules : List Clause) (θ : IRTerm → String) (l : Literal) : Prop :=
  Entails rules l.predicate (l.args.map (·.ground θ))

/-- Without rules, only the builtin facts are entailed. -/
theorem entails_nil {p : String} {as : List String} (h : Entails [] p as) :
    (p = "string_concat" ∧ ∃ a b, as = [a, b, a ++ b]) ∨ (p = "run" ∧ ∃ c, as = [c]) ∨
      (p = "from" ∧ ∃ c, as = [c]) := by
  cases h with
  | stringConcat a b => exact .inl ⟨rfl, a, b, rfl⟩
  | run c => exact .inr (.inl ⟨rfl, c, rfl⟩)
  | «from» c => exact .inr (.inr ⟨rfl, c, rfl⟩)
  | rule hc => cases hc

/-- `run` and `from` literals have one argument, as the builtins' masks do. -/
def BuiltinArity (l : Literal) : Prop :=
  l.predicate = "run" ∨ l.predicate = "from" → l.args.length = 1

section Holds

variable {rules : List Clause}

theorem holds_substitute {θ : IRTerm → String} {l : Literal} {σ : Substitution} :
    Holds rules θ (l.substitute σ) ↔ Holds rules (fun v => (v.substitute σ).ground θ) l := by
  simp only [Holds, Literal.substitute_predicate, Literal.substitute_args, List.map_map]
  exact Iff.of_eq (congrArg _ (List.map_congr_left fun t _ => IRTerm.ground_substitute t σ θ))

/-- Whether a literal holds depends on its predicate and arguments only. -/
theorem holds_congr {θ : IRTerm → String} {l r : Literal} (h : l.eqIgnoringPosition r) :
    Holds rules θ l ↔ Holds rules θ r := by
  rw [Holds, Holds, h.1, h.2]

theorem BuiltinArity.substitute {l : Literal} (h : BuiltinArity l) (σ : Substitution) :
    BuiltinArity (l.substitute σ) := by
  simpa [BuiltinArity] using h

/-- What a builtin edge fabricates holds under every substitution and assignment. -/
theorem holds_builtin_head {lit head : Literal} {p : BuiltinPredicate}
    (hsel : p.select lit = true) (happ : p.apply lit = .ok (some head)) (harity : BuiltinArity lit)
    (σ : Substitution) (θ : IRTerm → String) : Holds rules θ (head.substitute σ) := by
  rcases BuiltinPredicate.apply_eq_ok_some happ with ⟨-, a, b, rfl⟩ | ⟨hp, rfl, c, ts, hargs⟩
  · exact .stringConcat a b
  · have hname := BuiltinPredicate.name_eq_of_select hsel
    have hone : ts = [] := by
      have := harity (by rcases hp with rfl | rfl <;> simp_all [BuiltinPredicate.name])
      simpa [hargs] using this
    subst hone
    rcases hp with rfl | rfl
    · simpa [Holds, Literal.substitute, hargs, ← hname, BuiltinPredicate.name,
        IRTerm.ground] using (Entails.run c : Entails rules "run" [c])
    · simpa [Holds, Literal.substitute, hargs, ← hname, BuiltinPredicate.name,
        IRTerm.ground] using (Entails.«from» c : Entails rules "from" [c])

/-- **One resolution step is sound.** If the applied clause's body holds under the
edge's unifier, so does the selected literal. -/
theorem Edge.sound {lit : Literal} {cid : ClauseId} {mgu ren : Substitution} {clause : Clause}
    (h : Edge rules lit cid mgu ren clause) (harity : BuiltinArity lit) (θ : IRTerm → String)
    (hbody : ∀ b ∈ clause.body, Holds rules θ (b.substitute mgu)) :
    Holds rules θ (lit.substitute mgu) := by
  cases h with
  | @builtin p head mgu hsel hres =>
      cases happ : p.apply lit with
      | error e => simp [BuiltinPredicate.resolvent, happ, Except.map] at hres
      | ok head? =>
          simp only [BuiltinPredicate.resolvent, happ, Except.map, Except.ok.injEq,
            Option.bind_eq_some, Option.map_eq_some'] at hres
          obtain ⟨head, rfl, mgu, hu, hpair⟩ := hres
          cases hpair
          rw [← holds_congr (Literal.unify_sound hu)]
          exact holds_builtin_head (selectBuiltin_select (congrArg Prod.snd hsel)) happ harity mgu θ
  | @rule rid c n mgu hrid hu =>
      rw [← holds_congr (Literal.unify_sound hu), Clause.renameWithSub_fst, Clause.substitute_head,
        holds_substitute, holds_substitute]
      refine .rule (List.mem_iff_getElem?.mpr ⟨rid, hrid⟩) _ fun b hb => ?_
      show Holds rules _ b
      rw [← holds_substitute, ← holds_substitute]
      exact hbody _ (by simpa [Clause.renameWithSub_fst] using List.mem_map_of_mem _ hb)

/-- The body literals an edge applies keep the program's builtin arities. -/
theorem Edge.body_arity {lit : Literal} {cid : ClauseId} {mgu ren : Substitution}
    {clause : Clause} (h : Edge rules lit cid mgu ren clause)
    (hR : ∀ c ∈ rules, ∀ b ∈ c.body, BuiltinArity b) : ∀ b ∈ clause.body, BuiltinArity b := by
  cases h with
  | builtin => simp
  | @rule rid c n mgu hrid hu =>
      intro b hb
      rw [Clause.renameWithSub_fst, Clause.substitute_body] at hb
      obtain ⟨b', hb', rfl⟩ := List.mem_map.mp hb
      exact (hR c (List.mem_iff_getElem?.mpr ⟨rid, hrid⟩) b' hb').substitute _

end Holds

/-! ## Soundness over a tree -/

/-- The unifiers of a node: an edge's unifier composed with one of its subtree's. -/
theorem mem_solutionsAll {rs : List Entry} {σ : Substitution} :
    σ ∈ solutionsAll rs ↔ ∃ e ∈ rs, ∃ σ' ∈ solutionsInner e.2.2.2, σ = composeExtend e.2.1 σ' := by
  induction rs with
  | nil => simp only [solutionsAll, List.not_mem_nil, false_and, exists_false]
  | cons e rs ih =>
      obtain ⟨k, mgu, ren, t⟩ := e
      simp only [solutionsAll, List.mem_append, List.mem_map, ih, List.mem_cons]
      constructor
      · rintro (⟨σ', hσ', rfl⟩ | ⟨e, he, σ', hσ', rfl⟩)
        · exact ⟨_, .inl rfl, σ', hσ', rfl⟩
        · exact ⟨e, .inr he, σ', hσ', rfl⟩
      · rintro ⟨e, rfl | he, σ', hσ', rfl⟩
        · exact .inl ⟨σ', hσ', rfl⟩
        · exact .inr ⟨e, he, σ', hσ', rfl⟩

/-- A member of a list is the element at an index, or a member of the list without it. -/
theorem mem_eraseIdx_or {α : Type} {l : List α} {a b : α} {i : Nat} (ha : a ∈ l)
    (hb : l[i]? = some b) : a = b ∨ a ∈ l.eraseIdx i := by
  obtain ⟨j, hj⟩ := List.mem_iff_getElem?.mp ha
  by_cases hji : j = i
  · subst hji; exact .inl (Option.some.inj (hj.symm.trans hb))
  · exact .inr (List.mem_eraseIdx_iff_getElem?.mpr ⟨j, hji, hj⟩)

/-- **Soundness over a derivation tree.** Under the unifier of any root-to-leaf
path, every goal literal holds under every ground assignment. -/
theorem tree_sound {rules : List Clause} {t : Tree} (ht : t.WF rules)
    (hR : ∀ c ∈ rules, ∀ b ∈ c.body, BuiltinArity b) :
    (∀ lh ∈ t.goal, BuiltinArity lh.literal) →
      ∀ σ ∈ solutionsInner t, ∀ θ, ∀ lh ∈ t.goal, Holds rules θ (lh.literal.substitute σ) := by
  induction ht with
  | leaf level => intro _ σ _ θ lh hlh; cases hlh
  | @node goal level rs hgoal hedge hsub ih =>
      intro harity σ hσ θ lh hlh
      simp only [Tree.goal] at harity hlh
      simp only [solutionsInner, List.isEmpty_iff, hgoal, if_false] at hσ
      obtain ⟨e, he, σ', hσ', rfl⟩ := mem_solutionsAll.mp hσ
      obtain ⟨l, clause, hl, hed, hg, -⟩ := hedge e he
      have hlits : ∀ x ∈ (goal.eraseIdx e.1.1).map (·.literal) ++ clause.body,
          x.substitute e.2.1 ∈ e.2.2.2.goal.map (·.literal) := fun x hx => by
        rw [hg, literals_resolve]; exact List.mem_map_of_mem _ hx
      have hsubArity : ∀ lh ∈ e.2.2.2.goal, BuiltinArity lh.literal := by
        intro lh' hlh'
        have hmem : lh'.literal ∈ e.2.2.2.goal.map (·.literal) := List.mem_map_of_mem _ hlh'
        rw [hg, literals_resolve] at hmem
        obtain ⟨x, hx, heq⟩ := List.mem_map.mp hmem
        rw [← heq]
        rcases List.mem_append.mp hx with hx | hx
        · obtain ⟨lh, hlh, rfl⟩ := List.mem_map.mp hx
          exact (harity lh (List.mem_of_mem_eraseIdx hlh)).substitute _
        · exact (hed.body_arity hR x hx).substitute _
      have hrest : ∀ x ∈ (goal.eraseIdx e.1.1).map (·.literal) ++ clause.body,
          Holds rules θ ((x.substitute e.2.1).substitute σ') := fun x hx => by
        obtain ⟨lh', hlh', heq⟩ := List.mem_map.mp (hlits x hx)
        rw [← heq]; exact ih e he hsubArity σ' hσ' θ lh' hlh'
      rw [Literal.substitute_composeExtend]
      rcases mem_eraseIdx_or hlh hl with rfl | hlh
      · exact holds_substitute.mpr (hed.sound (harity _ hlh) _ fun b hb =>
          holds_substitute.mp (hrest b (List.mem_append_right _ hb)))
      · exact hrest _ (List.mem_append_left _ (List.mem_map_of_mem _ hlh))

/-- **Soundness of `sld`.** When `run` and `from` occur with one argument, every
answer of `sld` is the goal under the composed unifier of a root-to-leaf path, and
each of its literals holds under every ground assignment. -/
theorem sld_sound {rules : List Clause} {goal : List Literal} {maxdepth : Nat}
    {grounded : GroundnessMap} {n : Nat} {t : Tree} {n' : Nat}
    (hsld : sld rules goal maxdepth grounded n = .ok (some t, n'))
    (hG : ∀ l ∈ goal, BuiltinArity l) (hR : ∀ c ∈ rules, ∀ b ∈ c.body, BuiltinArity b) :
    ∀ g ∈ solutions t, ∃ σ ∈ solutionsInner t, g = goal.map (·.substitute σ) ∧
      ∀ θ, ∀ l ∈ g, Holds rules θ l := by
  obtain ⟨hwf, hgoal, -⟩ := sld_wf hsld
  have harity : ∀ lh ∈ t.goal, BuiltinArity lh.literal := fun lh hlh =>
    hG _ (queryGoal_literal goal ▸ List.mem_map_of_mem (·.literal) (hgoal ▸ hlh))
  intro g hg
  obtain ⟨σ, hσ, rfl⟩ := List.mem_map.mp hg
  refine ⟨σ, hσ, ?_, fun θ l hl => ?_⟩
  · rw [hgoal, ← congrArg (List.map (·.substitute σ)) (queryGoal_literal goal), List.map_map]
    rfl
  · obtain ⟨lh, hlh, rfl⟩ := List.mem_map.mp hl
    exact tree_sound hwf hR harity σ hσ θ lh hlh

/-- The answer `q("a")` of `q(X) :- p(X). p("a").` holds under every ground assignment. -/
theorem sld_sound_chain :
    let rules : List Clause :=
      [⟨⟨none, "q", [.userVariable "X"]⟩, [⟨none, "p", [.userVariable "X"]⟩]⟩,
        ⟨⟨none, "p", [.constant "a"]⟩, []⟩]
    ∃ t n', sld rules [⟨none, "q", [.userVariable "Y"]⟩] 3 (fun _ => some [true]) 0 =
        .ok (some t, n') ∧
      ∀ g ∈ solutions t, ∃ σ ∈ solutionsInner t,
        g = [(⟨none, "q", [.userVariable "Y"]⟩ : Literal)].map (·.substitute σ) ∧
        ∀ θ, ∀ l ∈ g, Holds rules θ l := by
  intro rules
  obtain ⟨t, n', h⟩ : ∃ t n', sld rules [⟨none, "q", [.userVariable "Y"]⟩] 3
      (fun _ => some [true]) 0 = .ok (some t, n') := ⟨_, _, by rfl⟩
  exact ⟨t, n', h, sld_sound h (by simp [BuiltinArity]) (by simp [rules, BuiltinArity])⟩

/-- `run("a", X)` against the empty program: `select` takes it for `Run`, whose
`apply` returns it unchanged, so `sld` answers `run("a", X)`; but `run("a", "b")`
is not entailed, since `run` facts have one argument. -/
theorem sld_run_unsound :
    ∃ t n', sld [] [⟨none, "run", [.constant "a", .userVariable "X"]⟩] 1 (fun _ => none) 0 =
        .ok (some t, n') ∧
      [⟨none, "run", [.constant "a", .userVariable "X"]⟩] ∈ solutions t ∧
      ¬ Holds [] (fun _ => "b") ⟨none, "run", [.constant "a", .userVariable "X"]⟩ := by
  refine ⟨_, _, rfl, by decide, fun h => ?_⟩
  rcases entails_nil h with ⟨hp, -⟩ | ⟨-, c, hc⟩ | ⟨hp, -⟩
  · exact absurd hp (by decide)
  · simp [IRTerm.ground] at hc
  · exact absurd hp (by decide)

end Modus.Sld
