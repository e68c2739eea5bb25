import Modus.Equivariance
import Modus.Sld.Freshness
import Modus.Sld.Safety

/-!
# Completeness of SLD resolution

`sld_sound` says that every answer of the engine holds. This module proves the
converse for the programs whose literals the engine resolves as soon as they come
first in the goal (`Plain`): no builtin carries their name, and the groundness map
allows a variable at every argument. `select` then always picks the first literal,
and every ground instance of the query that the program entails is an instance of
an answer of `sld`, at every depth from the size of a derivation on.

The proof lifts a ground derivation into the tree, one resolution step at a time. A
derivation of the goal's ground instance has a size, its number of rule applications
(`DerivesAll`). The first literal's derivation starts with a rule. Renamed apart,
that rule's head unifies with the literal: the goal's assignment and the rule's own
assignment, put together (`renamedAssignment`), make them equal, and the unifier is
more general than that assignment (`Literal.unify_complete`). The resolvent has a
derivation one smaller, so by induction on the depth its subtree has an answer, and
that answer composed with the unifier is an answer of the node.

Renaming apart needs the renamed ids to differ from those already in the goal: the
counter must not wrap around while the search runs, which is the hypothesis
`n' ≤ lo + 2 ^ 32` on the counter `sld` returns.

## Main results

* `entails_derives` — every entailed atom has a derivation of some size.
* `ruleResolvents_reaches` — the loop over the rules renames every rule with the
  literal's signature, and keeps the subtree of every one whose head unifies.
* `inner_complete` — `inner` builds a tree with an answer more general than every
  assignment under which the goal has a derivation no larger than the fuel.
* `sld_complete` — every ground instance of the query that the program entails is
  an instance of an answer of `sld`.
-/

namespace Modus.Sld

open Modus.Logic Modus.Builtin

/-! ## Literals resolved against the rules alone -/

/-- A literal `select` picks as soon as it comes first, and that resolves against the
rules only: no builtin carries its name, and the groundness map knows its signature
and allows a variable at every argument. -/
def Plain (grounded : GroundnessMap) (l : Literal) : Prop :=
  builtins.any (·.name == l.predicate) = false ∧ (grounded l.signature).any (·.all id) = true

instance (grounded : GroundnessMap) (l : Literal) : Decidable (Plain grounded l) :=
  inferInstanceAs (Decidable (_ ∧ _))

section Plain

variable {grounded : GroundnessMap} {l : Literal}

theorem Plain.substitute (h : Plain grounded l) (σ : Substitution) :
    Plain grounded (l.substitute σ) := by
  simpa [Plain] using h

theorem Plain.known (h : Plain grounded l) : Known grounded l := by
  refine ⟨.inl fun hn => by simp [Plain, hn] at h, fun p hp hname => ?_⟩
  have := List.any_eq_false.mp h.1 p hp
  simp [hname] at this

/-- No builtin accepts a plain literal. -/
theorem selectBuiltin_plain (h : Plain grounded l) : selectBuiltin l = (.noMatch, none) := by
  have hfind : builtins.find? (·.select l) = none := List.find?_eq_none.mpr fun p hp hsel => by
    have := List.any_eq_false.mp h.1 p hp
    simp [BuiltinPredicate.name_eq_of_select hsel] at this
  simp [selectBuiltin, hfind, h.1]

/-- `select` picks the first literal of a goal when it is plain. -/
theorem selectFrom_plain {lh : LiteralWithHistory} (h : Plain grounded lh.literal) (k : Nat)
    (rest : GoalWithHistory) : selectFrom grounded k (lh :: rest) = .ok (some (k, lh)) := by
  obtain ⟨flags, hflags, hall⟩ :
      ∃ flags, grounded lh.literal.signature = some flags ∧ ∀ f ∈ flags, f = true := by
    cases hg : grounded lh.literal.signature with
    | none => simp [Plain, hg] at h
    | some flags => exact ⟨flags, rfl, by simpa [Plain, hg] using h.2⟩
  have hzip : ((lh.literal.args.zip flags).all fun (t, allowed) => allowed || t.isGround) = true :=
    List.all_eq_true.mpr fun ⟨_, f⟩ hm => by simp [hall f (List.of_mem_zip hm).2]
  simp [selectFrom, selectBuiltin_plain h, hflags, hzip]

/-- A plain literal has no builtin resolvent. -/
theorem builtinResolvents_plain {visit : GoalWithHistory → Nat → Except Fault (Option Tree × Nat)}
    {lid : Nat} {lh : LiteralWithHistory} (h : Plain grounded lh.literal) (goal : GoalWithHistory)
    (level n : Nat) : builtinResolvents visit lid lh goal level n = .ok ([], n) := by
  simp only [builtinResolvents, builtinResolve, selectBuiltin_plain h]
  rfl

end Plain

/-! ## Derivations with a size -/

/-- The ground atom of a literal under `θ`: its predicate and the values of its arguments. -/
def atom (θ : IRTerm → String) (l : Literal) : String × List String :=
  (l.predicate, l.args.map (·.ground θ))

mutual

/-- A derivation of a ground atom from the rules, with `k` rule applications. -/
inductive Derives (rules : List Clause) : Nat → String × List String → Prop
  | rule {c : Clause} (hc : c ∈ rules) (θ : IRTerm → String) {k : Nat}
      (hbody : DerivesAll rules k (c.body.map (atom θ))) : Derives rules (k + 1) (atom θ c.head)

/-- Derivations of each atom of a list, with `k` rule applications in all. -/
inductive DerivesAll (rules : List Clause) : Nat → List (String × List String) → Prop
  | nil : DerivesAll rules 0 []
  | cons {k₁ k₂ : Nat} {a : String × List String} {as : List (String × List String)}
      (h : Derives rules k₁ a) (hs : DerivesAll rules k₂ as) : DerivesAll rules (k₁ + k₂) (a :: as)

end

theorem atom_congr {θ θ' : IRTerm → String} {l : Literal}
    (h : ∀ t ∈ l.args, t.ground θ = t.ground θ') : atom θ l = atom θ' l := by
  simp only [atom, List.map_congr_left h]

/-- A substitution that fixes `θ` does not change the atoms under `θ`. -/
theorem atom_substitute {θ : IRTerm → String} {σ : Substitution}
    (hσ : ∀ u : IRTerm, (u.substitute σ).ground θ = u.ground θ) (l : Literal) :
    atom θ (l.substitute σ) = atom θ l := by
  simp [atom, hσ]

section Derives

variable {rules : List Clause}

theorem DerivesAll.append {k₁ k₂ : Nat} {xs ys : List (String × List String)}
    (h₁ : DerivesAll rules k₁ xs) (h₂ : DerivesAll rules k₂ ys) :
    DerivesAll rules (k₁ + k₂) (xs ++ ys) := by
  induction xs generalizing k₁ with
  | nil => cases h₁; simpa using h₂
  | cons a xs ih =>
      cases h₁ with
      | cons h hs => rw [Nat.add_assoc]; exact .cons h (ih hs)

/-- Each atom takes at least one rule application. -/
theorem DerivesAll.length_le {k : Nat} {as : List (String × List String)}
    (h : DerivesAll rules k as) : as.length ≤ k := by
  induction as generalizing k with
  | nil => exact Nat.zero_le _
  | cons a as ih =>
      cases h with
      | cons h hs =>
          cases h
          have := ih hs
          simp only [List.length_cons]
          omega

theorem DerivesAll.of_forall :
    ∀ {as : List (String × List String)}, (∀ a ∈ as, ∃ k, Derives rules k a) →
      ∃ k, DerivesAll rules k as
  | [], _ => ⟨0, .nil⟩
  | a :: as, h => by
      obtain ⟨k₁, h₁⟩ := h a (List.mem_cons_self _ _)
      obtain ⟨k₂, h₂⟩ := DerivesAll.of_forall fun b hb => h b (List.mem_cons_of_mem _ hb)
      exact ⟨_, .cons h₁ h₂⟩

/-- Every entailed atom whose predicate no builtin carries has a derivation, when no
builtin carries a predicate of a rule body. -/
theorem entails_derives
    (hR : ∀ c ∈ rules, ∀ b ∈ c.body, builtins.any (·.name == b.predicate) = false)
    {p : String} {as : List String} (h : Entails rules p as)
    (hp : builtins.any (·.name == p) = false) : ∃ k, Derives rules k (p, as) := by
  induction h with
  | stringConcat => exact absurd hp (by decide)
  | run => exact absurd hp (by decide)
  | «from» => exact absurd hp (by decide)
  | @rule c hc θ _ ih =>
      obtain ⟨k, hk⟩ : ∃ k, DerivesAll rules k (c.body.map (atom θ)) := DerivesAll.of_forall fun a ha => by
        obtain ⟨b, hb, rfl⟩ := List.mem_map.mp ha
        exact ih b hb (hR c hc b hb)
      exact ⟨_, .rule hc θ hk⟩

end Derives

/-! ## Renaming a rule apart -/

/-- The assignment for a goal and a rule renamed apart from it by `ren`: a variable the
renaming made takes the value `θc` gives its original, any other term the value `θ`
gives it. -/
def renamedAssignment (θ θc : IRTerm → String) (ren : Substitution) : IRTerm → String
  | .renamedVariable i x =>
      if ren.lookup x = some (.renamedVariable i x) then θc x else θ (.renamedVariable i x)
  | t => θ t

section Renaming

variable {θ θc : IRTerm → String} {c : Clause} {m : Nat}

/-- The renamed rule takes the values the rule's own assignment gives. -/
theorem atom_renamedAssignment {l : Literal} (hl : l = c.head ∨ l ∈ c.body) :
    atom (renamedAssignment θ θc (c.renameWithSub m).1.2) (l.substitute (c.renameWithSub m).1.2) =
      atom θc l := by
  simp only [atom, Literal.substitute_predicate, Literal.substitute_args, List.map_map,
    Prod.mk.injEq, true_and]
  refine List.map_congr_left fun t ht => ?_
  cases hg : t.isGround
  · obtain ⟨k, hk⟩ := Clause.lookup_renameWithSub (n := m) (c.mem_vars_of_literal hl ht hg)
    simp only [Function.comp_apply, IRTerm.substitute_of_not_ground hg, hk, Option.getD_some]
    cases t with
    | constant => cases hg
    | _ => exact if_pos hk
  · obtain ⟨d, rfl⟩ := IRTerm.isGround_iff.mp hg
    rfl

/-- The terms drawn before the renaming keep the values `θ` gives, while the counter
does not wrap around. -/
theorem ground_renamedAssignment {lo n : Nat} {v : IRTerm} (hv : v.IdsIn lo n) (hnm : n ≤ m)
    (hfit : (c.renameWithSub m).2 ≤ lo + 2 ^ 32) :
    v.ground (renamedAssignment θ θc (c.renameWithSub m).1.2) = v.ground θ := by
  cases v with
  | renamedVariable i x =>
      refine if_neg fun hl => ?_
      have hr := (c.renameWithSub_renamedIn m).2 _ (Substitution.lookup_eq_some_mem hl)
      exact IRTerm.RenamedIn.ne hr rfl hv hnm hfit rfl
  | _ => rfl

end Renaming

/-! ## The loop over the rules reaches every rule -/

/-- The loop over the rules renames every rule with the literal's signature at a counter
between the loop's, and, when the renamed head unifies with the literal, builds the
resolvent's subtree and keeps it if it is not `None`. -/
theorem ruleResolvents_reaches
    {visit : GoalWithHistory → Nat → Except Fault (Option Tree × Nat)}
    (hvisit : ∀ g a r b, visit g a = .ok (r, b) → a ≤ b)
    {lid : Nat} {l : LiteralWithHistory} {goal : GoalWithHistory} {level : Nat} :
    ∀ {rid : Nat} {cs : List Clause} {n : Nat} {es : List Entry} {n' : Nat},
    ruleResolvents visit lid l goal level rid cs n = .ok (es, n') →
    ∀ {i : Nat} {c : Clause}, cs[i]? = some c → c.head.signature = l.literal.signature →
      ∃ m, n ≤ m ∧ (c.renameWithSub m).2 ≤ n' ∧
        ∀ mgu, (c.renameWithSub m).1.1.head.unify l.literal = some mgu →
          ∃ r m', visit (resolve lid (.rule (rid + i)) goal mgu (c.renameWithSub m).1.1 (level + 1))
              (c.renameWithSub m).2 = .ok (r, m') ∧ m' ≤ n' ∧
            ∀ t, r = some t → ((lid, .rule (rid + i)), mgu, (c.renameWithSub m).1.2, t) ∈ es := by
  intro rid cs
  induction cs generalizing rid with
  | nil => intro n es n' _ i c hc; simp at hc
  | cons c₀ rest ih =>
      intro n es n' h i c hc hsig
      cases i with
      | zero =>
          obtain rfl : c₀ = c := by simpa using hc
          have hc₀ := (c₀.renameWithSub_renamedIn n).1
          unfold ruleResolvents at h
          rw [if_pos hsig] at h
          split at h
          · rename_i mgu₀ hu₀
            obtain ⟨⟨t?, n₁⟩, hv, h⟩ := bind_eq_ok.mp h
            obtain ⟨⟨es', n₂⟩, hr, h⟩ := bind_eq_ok.mp h
            have hn₂ : n₂ = n' := congrArg Prod.snd (Except.ok.inj h)
            have hle₁ := hvisit _ _ _ _ hv
            have hle₂ := ruleResolvents_le hvisit hr
            refine ⟨n, le_rfl, by omega, fun mgu hu => ?_⟩
            obtain rfl : mgu₀ = mgu := Option.some.inj (hu₀.symm.trans hu)
            refine ⟨t?, n₁, hv, by omega, fun t ht => ?_⟩
            subst ht
            cases h
            exact List.mem_cons_self _ _
          · rename_i hu₀
            exact ⟨n, le_rfl, ruleResolvents_le hvisit h, fun mgu hu => by simp [hu] at hu₀⟩
      | succ i =>
          rw [show rid + (i + 1) = rid + 1 + i by omega]
          have hc' : rest[i]? = some c := by simpa using hc
          have hnext : ∀ {m₀ es'}, n ≤ m₀ →
              ruleResolvents visit lid l goal level (rid + 1) rest m₀ = .ok (es', n') →
              (∀ e ∈ es', e ∈ es) → ∃ m, n ≤ m ∧ (c.renameWithSub m).2 ≤ n' ∧
                ∀ mgu, (c.renameWithSub m).1.1.head.unify l.literal = some mgu →
                  ∃ r m', visit (resolve lid (.rule (rid + 1 + i)) goal mgu
                      (c.renameWithSub m).1.1 (level + 1)) (c.renameWithSub m).2 = .ok (r, m') ∧
                    m' ≤ n' ∧ ∀ t, r = some t →
                      ((lid, .rule (rid + 1 + i)), mgu, (c.renameWithSub m).1.2, t) ∈ es :=
            fun hm₀ hr hsub => by
              obtain ⟨m, hm, hfit, hreach⟩ := ih hr hc' hsig
              refine ⟨m, by omega, hfit, fun mgu hu => ?_⟩
              obtain ⟨r, m', hv, hm', hmem⟩ := hreach mgu hu
              exact ⟨r, m', hv, hm', fun t ht => hsub _ (hmem t ht)⟩
          have hc₀ := (c₀.renameWithSub_renamedIn n).1
          unfold ruleResolvents at h
          split at h
          · split at h
            · obtain ⟨⟨t?, n₁⟩, hv, h⟩ := bind_eq_ok.mp h
              obtain ⟨⟨es', n₂⟩, hr, h⟩ := bind_eq_ok.mp h
              have hle₁ := hvisit _ _ _ _ hv
              cases t? with
              | none => cases h; exact hnext (by omega) hr fun _ he => he
              | some t =>
                  cases h
                  exact hnext (by omega) hr fun _ he => List.mem_cons_of_mem _ he
            · exact hnext hc₀ h fun _ he => he
          · exact hnext le_rfl h fun _ he => he

/-! ## Lifting a derivation into the tree -/

section Lifting

variable {rules : List Clause} {grounded : GroundnessMap}

/-- One step of `inner` on a goal whose first literal is plain: the loop over the rules,
and a node with its resolvents when some resolvent is kept. -/
theorem inner_plain {fuel level n : Nat} {lh : LiteralWithHistory} {rest : GoalWithHistory}
    (h : Plain grounded lh.literal) {r : Option Tree} {n' : Nat}
    (hi : inner rules grounded (fuel + 1) (lh :: rest) level n = .ok (r, n')) :
    ∃ us, ruleResolvents (fun g m => inner rules grounded fuel g (level + 1) m) 0 lh (lh :: rest)
        level 0 rules n = .ok (us, n') ∧ (us ≠ [] → r = some (.mk (lh :: rest) level us)) := by
  simp only [inner] at hi
  split at hi
  · rename_i hemp; exact absurd hemp (by simp)
  obtain ⟨sel, hsel, hi⟩ := bind_eq_ok.mp hi
  rw [select, selectFrom_plain h] at hsel
  cases hsel
  obtain ⟨⟨bs, n₁⟩, hbs, hi⟩ := bind_eq_ok.mp hi
  rw [builtinResolvents_plain h] at hbs
  cases hbs
  obtain ⟨⟨us, n₂⟩, hus, hi⟩ := bind_eq_ok.mp hi
  refine ⟨us, ?_, fun hne => ?_⟩
  · split at hi <;> (cases hi; exact hus)
  · split at hi
    · rename_i hemp; exact absurd (by simpa using hemp) hne
    · cases hi; rfl

/-- The leaf answers the empty goal with the empty substitution. -/
theorem inner_nil_answer {fuel level n : Nat} (θ : IRTerm → String) {r : Option Tree} {n' : Nat}
    (h : inner rules grounded fuel [] level n = .ok (r, n')) :
    ∃ t, r = some t ∧ ∃ σ ∈ solutionsInner t, ∃ θ' : IRTerm → String,
      ∀ v : IRTerm, (v.substitute σ).ground θ' = v.ground θ := by
  rw [inner_nil] at h
  cases h
  exact ⟨_, rfl, [], by simp [solutionsInner], θ, fun v => by rw [IRTerm.substitute_nil]⟩

/-- **Lifting.** If the goal's ground instance under `θ` has a derivation with at most
`fuel` rule applications, `inner` builds a tree with an answer `σ` more general than
`θ` on every term drawn before the counter `n`, provided the counter does not wrap
around during the search. -/
theorem inner_complete (hR : ∀ c ∈ rules, ∀ b ∈ c.body, Plain grounded b) {lo : Nat}
    (fuel : Nat) :
    ∀ (goal : GoalWithHistory) (level n : Nat) (θ : IRTerm → String) (k : Nat), k ≤ fuel →
      (∀ lh ∈ goal, Plain grounded lh.literal) → (∀ lh ∈ goal, lh.literal.IdsIn lo n) →
      lo ≤ n → DerivesAll rules k (goal.map fun lh => atom θ lh.literal) →
      ∀ r n', inner rules grounded fuel goal level n = .ok (r, n') → n' ≤ lo + 2 ^ 32 →
        ∃ t, r = some t ∧ ∃ σ ∈ solutionsInner t, ∃ θ' : IRTerm → String,
          ∀ v : IRTerm, v.IdsIn lo n → (v.substitute σ).ground θ' = v.ground θ := by
  induction fuel with
  | zero =>
      intro goal level n θ k hk _ _ _ hD r n' h _
      obtain rfl : goal = [] := List.length_eq_zero.mp (by simpa using hD.length_le.trans hk)
      obtain ⟨t, hr, σ, hσ, θ', hθ'⟩ := inner_nil_answer θ h
      exact ⟨t, hr, σ, hσ, θ', fun v _ => hθ' v⟩
  | succ fuel ih =>
      intro goal level n θ k hk hplain hids hlo hD r n' h hfit
      obtain _ | ⟨lh, rest⟩ := goal
      · obtain ⟨t, hr, σ, hσ, θ', hθ'⟩ := inner_nil_answer θ h
        exact ⟨t, hr, σ, hσ, θ', fun v _ => hθ' v⟩
      rw [List.map_cons] at hD
      obtain _ | @⟨k₁, k₂, _, _, hlh, hrest⟩ := hD
      -- the rule the derivation of the first literal starts with
      generalize ha : atom θ lh.literal = a at hlh
      obtain @⟨c, hc, θc, kb, hbody⟩ := hlh
      obtain ⟨rid, hrid⟩ := List.mem_iff_getElem?.mp hc
      obtain ⟨us, hus, hr⟩ := inner_plain (hplain lh (List.mem_cons_self _ _)) h
      have hsig : c.head.signature = lh.literal.signature := by
        have hlen := congrArg List.length (congrArg Prod.snd ha)
        simp only [atom, List.length_map] at hlen
        exact congrArg₂ Signature.mk (congrArg Prod.fst ha).symm hlen.symm
      obtain ⟨m, hnm, hfitm, hreach⟩ :=
        ruleResolvents_reaches (fun _ _ _ _ hv => inner_le fuel hv) hus hrid hsig
      have hwin := c.renameWithSub_renamedIn m
      -- the goal's assignment, with the renamed rule's variables set as the rule's
      set θ₁ := renamedAssignment θ θc (c.renameWithSub m).1.2 with hθ₁
      have hold : ∀ v : IRTerm, v.IdsIn lo n → v.ground θ₁ = v.ground θ :=
        fun v hv => ground_renamedAssignment hv hnm (by omega)
      have hlit : ∀ lh' ∈ lh :: rest, atom θ₁ lh'.literal = atom θ lh'.literal :=
        fun lh' h' => atom_congr fun t ht => hold t (hids lh' h' t ht)
      have heq : atom θ₁ (c.renameWithSub m).1.1.head = atom θ₁ lh.literal := by
        rw [Clause.renameWithSub_fst, Clause.substitute_head, atom_renamedAssignment (.inl rfl), ← ha,
          hlit lh (List.mem_cons_self _ _)]
      obtain ⟨mgu, hu, hmgu⟩ := Literal.unify_complete (congrArg Prod.fst heq) (congrArg Prod.snd heq)
      obtain ⟨r', m', hv, hm'n, hmem⟩ := hreach mgu hu
      simp only [Nat.zero_add] at hv hmem
      have hm' := inner_le fuel hv
      obtain ⟨hclause, hmguIds⟩ := (Edge.rule hrid hu).idsIn
        (fun t ht => (hids lh (List.mem_cons_self _ _) t ht).mono le_rfl hnm) hwin.2
        (hlo.trans hnm) hwin.1
      have hclosed : ∀ u : IRTerm, u.IdsIn lo (c.renameWithSub m).2 →
          (u.substitute mgu).IdsIn lo (c.renameWithSub m).2 :=
        fun u hu => IRTerm.substitute_closed _ hu fun kv h => (hmguIds kv h).2
      -- the resolvent: its literals are plain, drawn before the counter, and derived
      have hplain' : ∀ lh' ∈ resolve 0 (.rule rid) (lh :: rest) mgu (c.renameWithSub m).1.1
          (level + 1), Plain grounded lh'.literal := by
        intro lh' h'
        rcases mem_resolve h' with ⟨lh₀, h₀, rfl⟩ | ⟨i, b, hb, rfl⟩
        · exact (hplain lh₀ h₀).substitute mgu
        · rw [Clause.renameWithSub_fst, Clause.substitute_body, List.getElem?_map] at hb
          obtain ⟨b₀, hb₀, rfl⟩ := Option.map_eq_some'.mp hb
          exact ((hR c hc b₀ (List.getElem?_mem hb₀)).substitute _).substitute mgu
      have hids' : ∀ lh' ∈ resolve 0 (.rule rid) (lh :: rest) mgu (c.renameWithSub m).1.1
          (level + 1), lh'.literal.IdsIn lo (c.renameWithSub m).2 := by
        intro lh' h' t ht
        rcases mem_resolve h' with ⟨lh₀, h₀, rfl⟩ | ⟨i, b, hb, rfl⟩
        · obtain ⟨u, hu, rfl⟩ := List.mem_map.mp ht
          exact hclosed u ((hids lh₀ h₀ u hu).mono le_rfl (by omega))
        · obtain ⟨u, hu, rfl⟩ := List.mem_map.mp ht
          exact hclosed u (hclause b (.inr (List.getElem?_mem hb)) u hu)
      have hatoms : (resolve 0 (.rule rid) (lh :: rest) mgu (c.renameWithSub m).1.1 (level + 1)).map
          (fun lh => atom θ₁ lh.literal) =
            rest.map (fun lh => atom θ lh.literal) ++ c.body.map (atom θc) := by
        have h1 := congrArg (List.map (atom θ₁))
          (literals_resolve 0 (.rule rid) (lh :: rest) mgu (c.renameWithSub m).1.1 (level + 1))
        simp only [List.map_map, List.eraseIdx_cons_zero, Clause.renameWithSub_fst,
          Clause.substitute_body, List.map_append] at h1
        refine h1.trans (congrArg₂ (· ++ ·) (List.map_congr_left fun lh' h' => ?_)
          (List.map_congr_left fun b hb => ?_))
        · show atom θ₁ (lh'.literal.substitute mgu) = atom θ lh'.literal
          rw [atom_substitute hmgu, hlit lh' (List.mem_cons_of_mem _ h')]
        · show atom θ₁ ((b.substitute (c.renameWithSub m).1.2).substitute mgu) = atom θc b
          rw [atom_substitute hmgu, atom_renamedAssignment (.inr hb)]
      obtain ⟨t', rfl, σ', hσ', θ'', hθ''⟩ := ih _ (level + 1) _ θ₁ (k₂ + kb) (by omega) hplain' hids'
        (hlo.trans (hnm.trans hwin.1)) (hatoms ▸ hrest.append hbody) r' m' hv (by omega)
      have hentry := hmem t' rfl
      obtain rfl := hr (List.ne_nil_of_mem hentry)
      refine ⟨_, rfl, composeExtend mgu σ', ?_, θ'', fun v hv => ?_⟩
      · simp only [solutionsInner, List.isEmpty_cons, Bool.false_eq_true, if_false]
        exact mem_solutionsAll.mpr ⟨_, hentry, σ', hσ', rfl⟩
      · calc (v.substitute (composeExtend mgu σ')).ground θ''
            = ((v.substitute mgu).substitute σ').ground θ'' := by
              rw [IRTerm.substitute_composeExtend]
          _ = (v.substitute mgu).ground θ₁ := hθ'' _ (hclosed v (hv.mono le_rfl (by omega)))
          _ = v.ground θ₁ := hmgu v
          _ = v.ground θ := hold v hv

end Lifting

/-- **SLD resolution is complete on plain programs.** When every literal of the query
and of the rule bodies is plain, and the query's terms were drawn in `[lo, n)`, every
ground instance of the query that the program entails is an instance of an answer of
`sld` from counter `n`, at every depth from the size of a derivation on, unless the
counter wraps around during the search. `sld` returns at every depth. -/
theorem sld_complete {rules : List Clause} {goal : List Literal} {grounded : GroundnessMap}
    {lo n : Nat} (hG : ∀ l ∈ goal, Plain grounded l) (hR : ∀ c ∈ rules, ∀ b ∈ c.body, Plain grounded b)
    (hids : ∀ l ∈ goal, l.IdsIn lo n) (hlo : lo ≤ n) {θ : IRTerm → String}
    (hθ : ∀ l ∈ goal, Holds rules θ l) :
    ∃ d, ∀ maxdepth, d ≤ maxdepth → ∃ r n', sld rules goal maxdepth grounded n = .ok (r, n') ∧
      (n' ≤ lo + 2 ^ 32 → ∃ t, r = some t ∧ ∃ ans ∈ solutions t, ∃ θ' : IRTerm → String,
        ans.map (atom θ') = goal.map (atom θ)) := by
  have hq : ∀ lh ∈ queryGoal goal, lh.literal ∈ goal := fun lh hlh =>
    queryGoal_literal goal ▸ List.mem_map_of_mem (·.literal) hlh
  have hatoms := congrArg (List.map (atom θ)) (queryGoal_literal goal)
  rw [List.map_map] at hatoms
  obtain ⟨d, hd⟩ : ∃ d, DerivesAll rules d (goal.map (atom θ)) := DerivesAll.of_forall fun a ha => by
    obtain ⟨l, hl, rfl⟩ := List.mem_map.mp ha
    exact entails_derives (fun c hc b hb => (hR c hc b hb).1) (hθ l hl) (hG l hl).1
  refine ⟨d, fun maxdepth hdm => ?_⟩
  obtain ⟨⟨r, n'⟩, h⟩ := inner_ok (fun c hc b hb => (hR c hc b hb).known) maxdepth (queryGoal goal) 0 n
    fun lh hlh => (hG _ (hq lh hlh)).known
  refine ⟨r, n', h, fun hfit => ?_⟩
  obtain ⟨t, rfl, σ, hσ, θ', hθ'⟩ := inner_complete hR maxdepth (queryGoal goal) 0 n θ d hdm
    (fun lh hlh => hG _ (hq lh hlh)) (fun lh hlh => hids _ (hq lh hlh)) hlo (hatoms ▸ hd) r n' h hfit
  refine ⟨t, rfl, _, List.mem_map_of_mem _ hσ, θ', ?_⟩
  calc (t.goal.map fun lh => lh.literal.substitute σ).map (atom θ')
      = (t.goal.map (·.literal)).map fun l => atom θ' (l.substitute σ) := by
        simp only [List.map_map]; rfl
    _ = goal.map fun l => atom θ' (l.substitute σ) := by rw [(inner_wf maxdepth h).2.1, queryGoal_literal]
    _ = goal.map (atom θ) := List.map_congr_left fun l hl => by
        simp only [atom, Literal.substitute_predicate, Literal.substitute_args, List.map_map]
        exact congrArg _ (List.map_congr_left fun u hu => hθ' u (hids l hl u hu))

/-- The program `p("a"). q(X) :- p(X).` and the query `q(W)`, whose instance `q("a")`
the program entails. -/
theorem sld_complete_chain :
    let rules : List Clause := [⟨⟨none, "p", [.constant "a"]⟩, []⟩,
      ⟨⟨none, "q", [.userVariable "X"]⟩, [⟨none, "p", [.userVariable "X"]⟩]⟩]
    let grounded : GroundnessMap := fun _ => some [true]
    let query : List Literal := [⟨none, "q", [.userVariable "W"]⟩]
    ∃ d, ∀ maxdepth, d ≤ maxdepth → ∃ r n', sld rules query maxdepth grounded 0 = .ok (r, n') ∧
      (n' ≤ 0 + 2 ^ 32 → ∃ t, r = some t ∧ ∃ ans ∈ solutions t, ∃ θ' : IRTerm → String,
        ans.map (atom θ') = query.map (atom fun _ => "a")) := by
  intro rules grounded query
  have hθ : ∀ l ∈ query, Holds rules (fun _ => "a") l := by
    intro l hl
    obtain rfl : l = ⟨none, "q", [.userVariable "W"]⟩ := List.mem_singleton.mp hl
    refine Entails.rule (c := ⟨⟨none, "q", [.userVariable "X"]⟩, [⟨none, "p", [.userVariable "X"]⟩]⟩)
      (by simp [rules]) (fun _ => "a") fun b hb => ?_
    obtain rfl : b = ⟨none, "p", [.userVariable "X"]⟩ := List.mem_singleton.mp hb
    exact Entails.rule (c := ⟨⟨none, "p", [.constant "a"]⟩, []⟩) (by simp [rules]) (fun _ => "a") nofun
  exact sld_complete (by decide) (by decide) (by simp [query, Literal.IdsIn, IRTerm.IdsIn]) le_rfl hθ

end Modus.Sld
