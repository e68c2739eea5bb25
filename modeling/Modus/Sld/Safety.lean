import Modus.Sld.Derivation

/-!
# When `sld` does not fail

`inner` can fail in two ways (`Fault`). `select` may meet a literal that neither the
groundness map nor any builtin knows. It then reports an unknown predicate, or panics
when the literal has no position. A builtin's `apply` may also index an argument past
the end of the literal. Nothing else in the engine fails. Unification and renaming
return `Option`s, and the loop over the rules only passes on the failures of the
subtrees.

So the engine does not fail when every literal it can meet is `Known`. For such a
literal, the groundness map knows its signature or a builtin carries its name. It also
has at least as many arguments as each builtin of its name reads. Substitution keeps
both the signature and the number of arguments. A resolvent's literals are those of
the goal and of a clause body, under the unifier. Hence every goal of a run whose query
and rule bodies are known is known too (`resolve_known`), and `sld` returns at every
depth and from every counter (`sld_ok`).

## Main results

* `selectFrom_ok` — `select` does not fail on a goal of known literals.
* `builtinResolve_ok` — nor does the builtin resolvent of a known literal.
* `inner_ok`, `sld_ok` — the engine returns.
-/

namespace Modus.Sld

open Modus.Logic Modus.Builtin

/-- A literal the engine can handle: the groundness map knows its signature or a
builtin carries its name, and it has at least as many arguments as each builtin of
its name reads. -/
def Known (grounded : GroundnessMap) (l : Literal) : Prop :=
  (grounded l.signature ≠ none ∨ builtins.any (·.name == l.predicate) = true) ∧
    ∀ p ∈ builtins, p.name = l.predicate → p.argGroundness.length ≤ l.args.length

instance (grounded : GroundnessMap) (l : Literal) : Decidable (Known grounded l) :=
  inferInstanceAs (Decidable (_ ∧ _))

theorem Known.substitute {grounded : GroundnessMap} {l : Literal} (h : Known grounded l)
    (σ : Substitution) : Known grounded (l.substitute σ) := by
  simpa [Known] using h

/-- A builtin `select_builtin` picks is one of the builtins. -/
theorem selectBuiltin_mem {l : Literal} {p : BuiltinPredicate}
    (h : (selectBuiltin l).2 = some p) : p ∈ builtins := by
  unfold selectBuiltin at h
  split at h
  · cases h; exact List.mem_of_find?_eq_some ‹_›
  · cases h

/-- When some builtin carries the literal's name, `select_builtin` does not answer
`NoMatch`. -/
theorem selectBuiltin_ne_noMatch {l : Literal} (h : builtins.any (·.name == l.predicate) = true) :
    (selectBuiltin l).1 ≠ .noMatch := by
  unfold selectBuiltin
  split <;> simp [h]

section

variable {grounded : GroundnessMap}

theorem selectFrom_ok {goal : GoalWithHistory} (h : ∀ lh ∈ goal, Known grounded lh.literal)
    (k : Nat) : ∃ r, selectFrom grounded k goal = .ok r := by
  induction goal generalizing k with
  | nil => exact ⟨none, rfl⟩
  | cons lh rest ih =>
      have hrest := ih (fun l hl => h l (List.mem_cons_of_mem _ hl)) (k + 1)
      have hknown := (h lh (List.mem_cons_self _ _)).1
      unfold selectFrom
      split
      · exact ⟨_, rfl⟩
      · split
        · split
          · exact ⟨_, rfl⟩
          · exact hrest
        · rename_i hmatch _ hnone
          split
          · exact hrest
          · rename_i hmis
            rcases hknown with hg | hb
            · exact absurd hnone hg
            · cases hr : (selectBuiltin lh.literal).1
              · exact absurd hr hmatch
              · exact absurd hr hmis
              · exact absurd hr (selectBuiltin_ne_noMatch hb)

theorem builtinResolve_ok {l : LiteralWithHistory} (h : Known grounded l.literal) (lid : Nat)
    (goal : GoalWithHistory) (level : Nat) : ∃ r, builtinResolve lid l goal level = .ok r := by
  unfold builtinResolve
  split
  · rename_i p hsel
    have hp : p ∈ builtins := selectBuiltin_mem (by rw [hsel])
    have hname := BuiltinPredicate.name_eq_of_select (selectBuiltin_select (by rw [hsel]))
    obtain ⟨o, ho⟩ := BuiltinPredicate.apply_ok_of_arity (h.2 p hp hname)
    have hres : p.resolvent l.literal = .ok (o.bind fun head => (head.unify l.literal).map (head, ·)) := by
      rw [BuiltinPredicate.resolvent, ho]; rfl
    rw [hres]
    split <;> first | exact ⟨_, rfl⟩ | cases ‹Except.ok _ = Except.error _›
  · exact ⟨_, rfl⟩

/-- The literals of a resolvent are known when those of the goal and the clause body
are. -/
theorem resolve_known {lid : Nat} {rid : ClauseId} {goal : GoalWithHistory}
    {mgu : Substitution} {rule : Clause} {level : Nat}
    (hg : ∀ lh ∈ goal, Known grounded lh.literal) (hb : ∀ b ∈ rule.body, Known grounded b) :
    ∀ lh ∈ resolve lid rid goal mgu rule level, Known grounded lh.literal := by
  intro lh hlh
  have hmem : lh.literal ∈ (resolve lid rid goal mgu rule level).map (·.literal) :=
    List.mem_map_of_mem _ hlh
  rw [literals_resolve] at hmem
  obtain ⟨x, hx, hx'⟩ := List.mem_map.mp hmem
  rw [← hx']
  rcases List.mem_append.mp hx with hx | hx
  · obtain ⟨y, hy, rfl⟩ := List.mem_map.mp hx
    exact (hg y (List.mem_of_mem_eraseIdx hy)).substitute mgu
  · exact (hb x hx).substitute mgu

variable {visit : GoalWithHistory → Nat → Except Fault (Option Tree × Nat)}
  (hvisit : ∀ g n, (∀ lh ∈ g, Known grounded lh.literal) → ∃ r, visit g n = .ok r)
  {goal : GoalWithHistory} (hgoal : ∀ lh ∈ goal, Known grounded lh.literal)
include hvisit hgoal

theorem builtinResolvents_ok {l : LiteralWithHistory} (hl : Known grounded l.literal)
    (lid level n : Nat) :
    ∃ r, builtinResolvents visit lid l goal level n = .ok r := by
  obtain ⟨b, hb⟩ := builtinResolve_ok hl lid goal level
  rcases b with _ | ⟨cid, mgu, ren, g⟩
  · exact ⟨_, by rw [builtinResolvents, hb]; rfl⟩
  · obtain ⟨clause, -, hedge, rfl⟩ := builtinResolve_some [] hb
    have hbody : clause.body = [] := by
      cases hedge with
      | builtin => rfl
      | rule hrid => simp at hrid
    obtain ⟨⟨t?, n₁⟩, hv⟩ := hvisit (resolve lid cid goal mgu clause (level + 1)) n
      (resolve_known hgoal (by simp [hbody]))
    exact ⟨_, by rw [builtinResolvents, hb]; simp only [ok_bind, hv]; rfl⟩

theorem ruleResolvents_ok (lid : Nat) (l : LiteralWithHistory) (level : Nat) :
    ∀ (rid : Nat) (cs : List Clause), (∀ c ∈ cs, ∀ b ∈ c.body, Known grounded b) →
      ∀ n, ∃ r, ruleResolvents visit lid l goal level rid cs n = .ok r := by
  intro rid cs
  induction cs generalizing rid with
  | nil => exact fun _ n => ⟨_, rfl⟩
  | cons c rest ih =>
      intro hcs n
      have hrest := ih (rid + 1) fun c' hc' => hcs c' (List.mem_cons_of_mem _ hc')
      unfold ruleResolvents
      split
      · split
        · rename_i mgu _
          have hbody : ∀ b ∈ (c.renameWithSub n).1.1.body, Known grounded b := by
            rw [Clause.renameWithSub_fst, Clause.substitute_body]
            intro b hb
            obtain ⟨b', hb', rfl⟩ := List.mem_map.mp hb
            exact (hcs c (List.mem_cons_self _ _) b' hb').substitute _
          obtain ⟨⟨t?, n₁⟩, hv⟩ := hvisit
            (resolve lid (.rule rid) goal mgu (c.renameWithSub n).1.1 (level + 1))
            (c.renameWithSub n).2 (resolve_known hgoal hbody)
          obtain ⟨⟨es, n₂⟩, hr⟩ := hrest n₁
          exact ⟨_, by simp only [hv, hr, ok_bind]; rfl⟩
        · exact hrest _
      · exact hrest n

end

/-- `inner` returns on every goal of known literals, when every rule body is known. -/
theorem inner_ok {rules : List Clause} {grounded : GroundnessMap}
    (hR : ∀ c ∈ rules, ∀ b ∈ c.body, Known grounded b) (fuel : Nat) :
    ∀ (goal : GoalWithHistory) (level n : Nat), (∀ lh ∈ goal, Known grounded lh.literal) →
      ∃ r, inner rules grounded fuel goal level n = .ok r := by
  induction fuel with
  | zero =>
      intro goal level n _
      unfold inner
      split <;> exact ⟨_, rfl⟩
  | succ fuel ih =>
      intro goal level n hgoal
      simp only [inner]
      split
      · exact ⟨_, rfl⟩
      obtain ⟨sel, hsel⟩ := selectFrom_ok hgoal 0
      rcases sel with _ | ⟨lid, l⟩
      · exact ⟨_, by simp only [select, hsel, ok_bind]; rfl⟩
      have hl : Known grounded l.literal :=
        hgoal l (List.getElem?_mem (by simpa using (selectFrom_some hsel).2))
      have hvisit := fun g m hg => ih g (level + 1) m hg
      obtain ⟨⟨bs, n₁⟩, hb⟩ := builtinResolvents_ok hvisit hgoal hl lid level n
      obtain ⟨⟨us, n₂⟩, hu⟩ := ruleResolvents_ok hvisit hgoal lid l level 0 rules hR n₁
      simp only [select, hsel, hb, hu, ok_bind]
      split <;> exact ⟨_, rfl⟩

/-- **`sld` does not fail on known programs.** When every literal of the query and of
the rule bodies is known (the groundness map knows its signature or a builtin carries
its name, with at least as many arguments as each builtin of its name reads), `sld`
returns, with no unknown-predicate diagnostic and no panic, at every depth and from
every counter. -/
theorem sld_ok {rules : List Clause} {goal : List Literal} {maxdepth : Nat}
    {grounded : GroundnessMap} {n : Nat} (hG : ∀ l ∈ goal, Known grounded l)
    (hR : ∀ c ∈ rules, ∀ b ∈ c.body, Known grounded b) :
    ∃ r n', sld rules goal maxdepth grounded n = .ok (r, n') := by
  have hq : ∀ lh ∈ queryGoal goal, Known grounded lh.literal := fun lh hlh =>
    hG _ (queryGoal_literal goal ▸ List.mem_map_of_mem (·.literal) hlh)
  obtain ⟨⟨r, n'⟩, h⟩ := inner_ok hR maxdepth (queryGoal goal) 0 n hq
  exact ⟨r, n', h⟩

/-- A program with a builtin in a rule body: `greet(X) :- name(Y), string_concat("hi ",
Y, X). name("bob").`, queried at `greet(Z)`. -/
theorem sld_ok_greet :
    let rules : List Clause :=
      [⟨⟨none, "greet", [.userVariable "X"]⟩, [⟨none, "name", [.userVariable "Y"]⟩,
          ⟨none, "string_concat", [.constant "hi ", .userVariable "Y", .userVariable "X"]⟩]⟩,
        ⟨⟨none, "name", [.constant "bob"]⟩, []⟩]
    let grounded : GroundnessMap := fun s =>
      if s = ⟨"greet", 1⟩ ∨ s = ⟨"name", 1⟩ then some [true] else none
    ∃ r n', sld rules [⟨none, "greet", [.userVariable "Z"]⟩] 4 grounded 0 = .ok (r, n') := by
  intro rules grounded
  exact sld_ok (by decide) (by decide)

end Modus.Sld
