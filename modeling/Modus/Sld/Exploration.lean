import Modus.Sld.Engine
import Modus.Equivariance

/-!
# The search, path by path

`inner` threads one counter through the whole search: a rule is renamed only when
the subtrees of every earlier resolvent are built, so the ids a path draws depend
on how much of the tree was explored before it. What the search finds does not
depend on that. `explore` is the search of `inner` in which every child is built
from the counter its own renaming leaves, whatever its siblings drew: it returns
the answers of the search (the composed unifier of every leaf, in the order of
`solutionsInner`) and the number of ids the whole search draws. Goals carry no
history, which the search never reads.

Comparing two searches is easy here, since a path draws the same ids in both:

* with more fuel the search finds every answer it found before (`explore_mono`);
* permuting the rules changes neither whether the search fails, nor its answers,
  nor the ids it draws (`explore_perm`).

`Modus.Sld.Refinement` shows that `inner` computes `explore`, up to a renaming of
ids on each path, and carries both facts over to `sld`.

## Main results

* `explore_mono` — more fuel keeps every answer.
* `explore_perm` — the order of the rules does not matter.
-/

namespace Modus.Sld

open Modus.Logic Modus.Builtin

/-! ## The search on goals without history -/

/-- A literal with an empty history. -/
def bare (l : Literal) : LiteralWithHistory := ⟨l, 0, ⟨.query, 0⟩⟩

/-- `select` on a goal without history: the index and the literal selected. -/
def selectLiteral (grounded : GroundnessMap) (goal : List Literal) :
    Except Fault (Option (Nat × Literal)) :=
  (select grounded (goal.map bare)).map (Option.map fun p => (p.1, p.2.literal))

/-- The literals of `resolve`: the goal without the selected literal, then the
body, under the mgu. -/
def resolveGoal (lid : Nat) (goal : List Literal) (mgu : Substitution) (body : List Literal) :
    List Literal :=
  (goal.eraseIdx lid ++ body).map (·.substitute mgu)

/-- `builtinResolve` on a goal without history: the unifier of the builtin
resolvent of `l`, selected at `lid`, and the goal it resolves to. -/
def builtinStep (lid : Nat) (l : Literal) (goal : List Literal) :
    Except Fault (Option (Substitution × List Literal)) :=
  match selectBuiltin l with
  | (.«match», some p) =>
      match p.resolvent l with
      | .error msg => .error (.panic msg)
      | .ok none => .ok none
      | .ok (some (_, mgu)) => .ok (some (mgu, resolveGoal lid goal mgu []))
  | _ => .ok none

/-- One rule's part of the search at a node whose path has drawn up to counter `m`:
the rule, renamed at `m`, resolved against `l`; the answers below it, each composed
with the mgu, and the ids drawn, the renaming's included. -/
def ruleStep (visit : List Literal → Nat → Except Fault (List Substitution × Nat)) (lid : Nat)
    (l : Literal) (goal : List Literal) (m : Nat) (c : Clause) :
    Except Fault (List Substitution × Nat) :=
  if c.head.signature = l.signature then
    match (c.renameWithSub m).1.1.head.unify l with
    | some mgu => do
        let (ss, d) ← visit (resolveGoal lid goal mgu (c.renameWithSub m).1.1.body)
          (c.renameWithSub m).2
        pure (ss.map (composeExtend mgu), c.vars.dedup.length + d)
    | none => pure ([], c.vars.dedup.length)
  else pure ([], 0)

/-- The builtin's part of the search at a node: the answers below its resolvent,
composed with its unifier, and the ids drawn. -/
def builtinPart (visit : List Literal → Nat → Except Fault (List Substitution × Nat)) (lid : Nat)
    (l : Literal) (goal : List Literal) (m : Nat) : Except Fault (List Substitution × Nat) := do
  match ← builtinStep lid l goal with
  | some (mgu, g) =>
      let (ss, d) ← visit g m
      pure (ss.map (composeExtend mgu), d)
  | none => pure ([], 0)

/-- The answers and draws of the searches `F x`, for `x` in order, put together; the
first failure fails the whole. -/
def gather {α : Type} (F : α → Except Fault (List Substitution × Nat)) (xs : List α) :
    Except Fault (List Substitution × Nat) := do
  let us ← xs.mapM F
  pure ((us.map Prod.fst).flatten, (us.map Prod.snd).sum)

/-- The search below a node where `l` is selected at `lid`: the builtin first, then
every rule in order. -/
def exploreNode (visit : List Literal → Nat → Except Fault (List Substitution × Nat))
    (rules : List Clause) (lid : Nat) (l : Literal) (goal : List Literal) (m : Nat) :
    Except Fault (List Substitution × Nat) := do
  let (bs, d₁) ← builtinPart visit lid l goal m
  let (us, d₂) ← gather (ruleStep visit lid l goal m) rules
  pure (bs ++ us, d₁ + d₂)

/-- **The search, path by path.** The search of `inner`, with every child built from
the counter its own renaming leaves: the answers, and the number of ids the whole
search draws. An empty goal has the one answer `[]`. -/
def explore (rules : List Clause) (grounded : GroundnessMap) :
    Nat → List Literal → Nat → Except Fault (List Substitution × Nat)
  | fuel, goal, m =>
      if goal.isEmpty then .ok ([[]], 0)
      else match fuel with
        | 0 => .ok ([], 0)
        | fuel + 1 => do
            let some (lid, l) ← selectLiteral grounded goal | pure ([], 0)
            exploreNode (fun g m' => explore rules grounded fuel g m') rules lid l goal m

section Unfold

variable {rules : List Clause} {grounded : GroundnessMap} {fuel m : Nat} {goal : List Literal}

@[simp] theorem explore_nil : explore rules grounded fuel [] m = .ok ([[]], 0) := by
  cases fuel <;> rfl

theorem explore_zero (h : goal ≠ []) : explore rules grounded 0 goal m = .ok ([], 0) := by
  cases goal
  · exact absurd rfl h
  · rfl

theorem explore_succ (h : goal ≠ []) :
    explore rules grounded (fuel + 1) goal m = (do
      let some (lid, l) ← selectLiteral grounded goal | pure ([], 0)
      exploreNode (fun g m' => explore rules grounded fuel g m') rules lid l goal m) := by
  cases goal
  · exact absurd rfl h
  · rfl

end Unfold

/-! ## Comparing outcomes -/

/-- Two outcomes of the search agree: both fail, or both succeed with the same
answers, as a set, and the same number of draws. -/
def SameOutcome : Except Fault (List Substitution × Nat) → Except Fault (List Substitution × Nat) →
    Prop
  | .error _, .error _ => True
  | .ok (L, d), .ok (L', d') => d = d' ∧ ∀ σ, σ ∈ L ↔ σ ∈ L'
  | _, _ => False

namespace SameOutcome

theorem refl (r : Except Fault (List Substitution × Nat)) : SameOutcome r r := by
  rcases r with _ | ⟨L, d⟩ <;> simp [SameOutcome]

theorem trans {r₁ r₂ r₃ : Except Fault (List Substitution × Nat)} (h₁ : SameOutcome r₁ r₂)
    (h₂ : SameOutcome r₂ r₃) : SameOutcome r₁ r₃ := by
  rcases r₁ with _ | ⟨L₁, d₁⟩ <;> rcases r₂ with _ | ⟨L₂, d₂⟩ <;> rcases r₃ with _ | ⟨L₃, d₃⟩ <;>
    simp only [SameOutcome] at h₁ h₂ ⊢
  exact ⟨h₁.1.trans h₂.1, fun σ => (h₁.2 σ).trans (h₂.2 σ)⟩

/-- Binding agreeing outcomes to continuations that agree gives agreeing outcomes. -/
theorem bind {r r' : Except Fault (List Substitution × Nat)}
    {k k' : List Substitution × Nat → Except Fault (List Substitution × Nat)} (h : SameOutcome r r')
    (hk : ∀ L d L' d', d = d' → (∀ σ, σ ∈ L ↔ σ ∈ L') → SameOutcome (k (L, d)) (k' (L', d'))) :
    SameOutcome (r >>= k) (r' >>= k') := by
  rcases r with _ | ⟨L, d⟩ <;> rcases r' with _ | ⟨L', d'⟩ <;> simp only [SameOutcome] at h
  · trivial
  · exact hk L d L' d' h.1 h.2

end SameOutcome

/-- When both outcomes succeed, every answer of the first is one of the second. -/
def Subsumes (r r' : Except Fault (List Substitution × Nat)) : Prop :=
  ∀ u u', r = .ok u → r' = .ok u' → ∀ σ ∈ u.1, σ ∈ u'.1

theorem Subsumes.refl (r : Except Fault (List Substitution × Nat)) : Subsumes r r := by
  rintro u u' rfl h
  cases h
  exact fun _ hσ => hσ

/-- Searches that compose their answers with the same unifier keep subsumption. -/
theorem Subsumes.compose {r r' : Except Fault (List Substitution × Nat)} (h : Subsumes r r')
    (mgu : Substitution) (g : Nat → Nat) :
    Subsumes (do let (ss, d) ← r; pure (ss.map (composeExtend mgu), g d))
      (do let (ss, d) ← r'; pure (ss.map (composeExtend mgu), g d)) := by
  rintro u u' hu hu' σ hσ
  obtain ⟨⟨ss, d⟩, hr, hu⟩ := bind_eq_ok.mp hu
  obtain ⟨⟨ss', d'⟩, hr', hu'⟩ := bind_eq_ok.mp hu'
  cases hu; cases hu'
  obtain ⟨τ, hτ, rfl⟩ := List.mem_map.mp hσ
  exact List.mem_map.mpr ⟨τ, h _ _ hr hr' τ hτ, rfl⟩

/-! ## `gather` -/

section Gather

variable {α : Type} {F F' : α → Except Fault (List Substitution × Nat)} {xs xs' : List α}

/-- The outputs of a successful `mapM`, read through `g`, are `g` of each output. -/
theorem map_of_forall₂_ok {β : Type} {ys : List (List Substitution × Nat)}
    (h : List.Forall₂ (fun x y => F x = .ok y) xs ys) (g : List Substitution × Nat → β) (z : β) :
    ys.map g = xs.map fun x => ((F x).toOption.map g).getD z := by
  induction h with
  | nil => rfl
  | cons hxy _ ih => simp [hxy, Except.toOption, ih]

/-- `gather` succeeds when every search does, with their answers and draws together. -/
theorem gather_eq_ok {L : List Substitution} {d : Nat} :
    gather F xs = .ok (L, d) ↔ (∀ x ∈ xs, ∃ u, F x = .ok u) ∧
      L = (xs.map fun x => ((F x).toOption.map Prod.fst).getD []).flatten ∧
      d = (xs.map fun x => ((F x).toOption.map Prod.snd).getD 0).sum := by
  unfold gather
  rw [bind_eq_ok]
  constructor
  · rintro ⟨us, hus, h⟩
    cases h
    refine ⟨fun x hx => ?_, by rw [map_of_forall₂_ok (mapM_forall₂ hus)],
      by rw [map_of_forall₂_ok (mapM_forall₂ hus)]⟩
    rcases hx' : F x with e | u
    · obtain ⟨e', he'⟩ := mapM_isError.mpr ⟨x, hx, e, hx'⟩
      rw [hus] at he'; cases he'
    · exact ⟨u, rfl⟩
  · rintro ⟨hok, rfl, rfl⟩
    rcases hus : xs.mapM F with e | us
    · obtain ⟨x, hx, e', hxe⟩ := mapM_isError.mp ⟨e, hus⟩
      obtain ⟨u, hu⟩ := hok x hx
      rw [hu] at hxe; cases hxe
    · refine ⟨us, rfl, ?_⟩
      rw [map_of_forall₂_ok (mapM_forall₂ hus), map_of_forall₂_ok (mapM_forall₂ hus)]; rfl

/-- `gather` fails when some search does. -/
theorem gather_isError : (∃ e, gather F xs = .error e) ↔ ∃ x ∈ xs, ∃ e, F x = .error e := by
  rw [← mapM_isError]
  unfold gather
  rcases xs.mapM F with e | us <;> simp [bind, Except.bind, pure, Except.pure]

theorem gather_nil : gather F [] = .ok ([], 0) := rfl

theorem gather_cons (x : α) (xs : List α) :
    gather F (x :: xs) = (do
      let u ← F x
      let (L, d) ← gather F xs
      pure (u.1 ++ L, u.2 + d)) := by
  unfold gather
  rw [List.mapM_cons]
  rcases F x with e | u
  · rfl
  · rcases xs.mapM F with e | us
    · rfl
    · simp [bind, Except.bind, pure, Except.pure]

theorem SameOutcome.of_ok {u : List Substitution × Nat} {r : Except Fault (List Substitution × Nat)}
    (h : SameOutcome (.ok u) r) : ∃ u', r = .ok u' ∧ u.2 = u'.2 ∧ ∀ σ, σ ∈ u.1 ↔ σ ∈ u'.1 := by
  rcases r with _ | u' <;> simp only [SameOutcome] at h
  exact ⟨u', rfl, h⟩

theorem SameOutcome.of_error {e : Fault} {r : Except Fault (List Substitution × Nat)}
    (h : SameOutcome (.error e) r) : ∃ e', r = .error e' := by
  rcases r with e' | _ <;> simp only [SameOutcome] at h
  exact ⟨e', rfl⟩

/-- **Gathering in any order.** Searches that agree, gathered over two orders of one
list, agree. -/
theorem gather_perm (hperm : xs.Perm xs') (hF : ∀ x ∈ xs, SameOutcome (F x) (F' x)) :
    SameOutcome (gather F xs) (gather F' xs') := by
  rcases hg : gather F xs with e | ⟨L, d⟩
  · obtain ⟨x, hx, e', hxe⟩ := gather_isError.mp ⟨e, hg⟩
    obtain ⟨e'', he''⟩ := SameOutcome.of_error (hxe ▸ hF x hx)
    obtain ⟨_, hg'⟩ := gather_isError.mpr ⟨x, hperm.subset hx, e'', he''⟩
    rw [hg']; trivial
  · obtain ⟨hok, rfl, rfl⟩ := gather_eq_ok.mp hg
    have hval : ∀ x ∈ xs, ∃ u u', F x = .ok u ∧ F' x = .ok u' ∧ u.2 = u'.2 ∧
        ∀ σ, σ ∈ u.1 ↔ σ ∈ u'.1 := fun x hx => by
      obtain ⟨u, hu⟩ := hok x hx
      obtain ⟨u', hu', h⟩ := SameOutcome.of_ok (hu ▸ hF x hx)
      exact ⟨u, u', hu, hu', h⟩
    have hok' : ∀ x ∈ xs', ∃ u, F' x = .ok u := fun x hx => by
      obtain ⟨-, u', -, hu', -⟩ := hval x (hperm.mem_iff.mpr hx)
      exact ⟨u', hu'⟩
    rw [gather_eq_ok.mpr ⟨hok', rfl, rfl⟩]
    refine ⟨?_, fun σ => ?_⟩
    · rw [(hperm.map _).sum_eq]
      refine congrArg _ (List.map_congr_left fun x hx => ?_)
      obtain ⟨u, u', hu, hu', h, -⟩ := hval x (hperm.mem_iff.mpr hx)
      simp [hu, hu', Except.toOption, h]
    · simp only [List.mem_flatten, List.mem_map, ← hperm.mem_iff]
      constructor
      · rintro ⟨_, ⟨x, hx, rfl⟩, hσ⟩
        obtain ⟨u, u', hu, hu', -, h⟩ := hval x hx
        simp only [hu, Except.toOption, Option.map_some', Option.getD_some] at hσ
        exact ⟨_, ⟨x, hx, rfl⟩, by simpa [hu', Except.toOption] using (h σ).mp hσ⟩
      · rintro ⟨_, ⟨x, hx, rfl⟩, hσ⟩
        obtain ⟨u, u', hu, hu', -, h⟩ := hval x hx
        simp only [hu', Except.toOption, Option.map_some', Option.getD_some] at hσ
        exact ⟨_, ⟨x, hx, rfl⟩, by simpa [hu, Except.toOption] using (h σ).mpr hσ⟩

/-- Searches each subsumed by its counterpart, gathered, are subsumed. -/
theorem gather_subsumes (hF : ∀ x ∈ xs, Subsumes (F x) (F' x)) :
    Subsumes (gather F xs) (gather F' xs) := by
  rintro ⟨L, d⟩ ⟨L', d'⟩ hg hg' σ hσ
  obtain ⟨hok, rfl, -⟩ := gather_eq_ok.mp hg
  obtain ⟨hok', rfl, -⟩ := gather_eq_ok.mp hg'
  simp only [List.mem_flatten, List.mem_map] at hσ ⊢
  obtain ⟨_, ⟨x, hx, rfl⟩, hσ⟩ := hσ
  obtain ⟨u, hu⟩ := hok x hx
  obtain ⟨u', hu'⟩ := hok' x hx
  simp only [hu, Except.toOption, Option.map_some', Option.getD_some] at hσ
  exact ⟨_, ⟨x, hx, rfl⟩, by simpa [hu', Except.toOption] using hF x hx u u' hu hu' σ hσ⟩

end Gather

/-! ## Two searches -/

section Node

variable {visit visit' : List Literal → Nat → Except Fault (List Substitution × Nat)}
  {lid : Nat} {l : Literal} {goal : List Literal} {m : Nat}

theorem Subsumes.of_nil {d : Nat} (r : Except Fault (List Substitution × Nat)) :
    Subsumes (.ok ([], d)) r := by
  rintro u u' hu - σ hσ
  cases hu; cases hσ

theorem exploreNode_subsumes (hv : ∀ g m, Subsumes (visit g m) (visit' g m)) (rules : List Clause) :
    Subsumes (exploreNode visit rules lid l goal m) (exploreNode visit' rules lid l goal m) := by
  have hb : Subsumes (builtinPart visit lid l goal m) (builtinPart visit' lid l goal m) := by
    unfold builtinPart
    rcases builtinStep lid l goal with e | _ | ⟨mgu, g⟩
    · rintro u - hu; cases hu
    · exact Subsumes.of_nil _
    · exact (hv g m).compose mgu id
  have hr : Subsumes (gather (ruleStep visit lid l goal m) rules)
      (gather (ruleStep visit' lid l goal m) rules) := by
    refine gather_subsumes fun c _ => ?_
    unfold ruleStep
    split
    · split
      · exact (hv _ _).compose _ _
      · exact Subsumes.of_nil _
    · exact Subsumes.of_nil _
  rintro u u' hu hu' σ hσ
  obtain ⟨⟨bs, d₁⟩, hbs, hu⟩ := bind_eq_ok.mp hu
  obtain ⟨⟨us, d₂⟩, hus, hu⟩ := bind_eq_ok.mp hu
  obtain ⟨⟨bs', d₁'⟩, hbs', hu'⟩ := bind_eq_ok.mp hu'
  obtain ⟨⟨us', d₂'⟩, hus', hu'⟩ := bind_eq_ok.mp hu'
  cases hu; cases hu'
  rcases List.mem_append.mp hσ with hσ | hσ
  · exact List.mem_append_left _ (hb _ _ hbs hbs' σ hσ)
  · exact List.mem_append_right _ (hr _ _ hus hus' σ hσ)

theorem exploreNode_sameOutcome (hv : ∀ g m, SameOutcome (visit g m) (visit' g m))
    {rules rules' : List Clause} (hperm : rules.Perm rules') :
    SameOutcome (exploreNode visit rules lid l goal m) (exploreNode visit' rules' lid l goal m) := by
  have hcompose : ∀ (r r' : Except Fault (List Substitution × Nat)) (mgu : Substitution)
      (g : Nat → Nat), SameOutcome r r' →
      SameOutcome (do let (ss, d) ← r; pure (ss.map (composeExtend mgu), g d))
        (do let (ss, d) ← r'; pure (ss.map (composeExtend mgu), g d)) := by
    intro r r' mgu g h
    refine SameOutcome.bind h fun L d L' d' hd hL => ⟨by rw [hd], fun σ => ?_⟩
    simp only [List.mem_map, hL]
  refine SameOutcome.bind ?_ fun bs d₁ bs' d₁' hd₁ hbs => SameOutcome.bind ?_
    fun us d₂ us' d₂' hd₂ hus => ⟨by rw [hd₁, hd₂], fun σ => by simp only [List.mem_append, hbs, hus]⟩
  · unfold builtinPart
    rcases builtinStep lid l goal with e | _ | ⟨mgu, g⟩
    · trivial
    · exact SameOutcome.refl _
    · exact hcompose _ _ mgu id (hv g m)
  · refine gather_perm hperm fun c _ => ?_
    unfold ruleStep
    split
    · split
      · exact hcompose _ _ _ _ (hv _ _)
      · exact SameOutcome.refl _
    · exact SameOutcome.refl _

end Node

variable {rules : List Clause} {grounded : GroundnessMap}

/-- **More fuel keeps every answer.** If the search succeeds with fuel `k` and with
fuel `k' ≥ k`, every answer of the first is an answer of the second. -/
theorem explore_mono : ∀ {k k' : Nat}, k ≤ k' → ∀ (goal : List Literal) (m : Nat),
    Subsumes (explore rules grounded k goal m) (explore rules grounded k' goal m) := by
  intro k
  induction k with
  | zero =>
      intro k' _ goal m
      by_cases hg : goal = []
      · subst hg; rw [explore_nil, explore_nil]; exact Subsumes.refl _
      · rw [explore_zero hg]; exact Subsumes.of_nil _
  | succ k ih =>
      intro k' hk goal m
      by_cases hg : goal = []
      · subst hg; rw [explore_nil, explore_nil]; exact Subsumes.refl _
      obtain ⟨k', rfl⟩ : ∃ k'', k' = k'' + 1 := ⟨k' - 1, by omega⟩
      rw [explore_succ hg, explore_succ hg]
      rcases selectLiteral grounded goal with e | _ | ⟨lid, l⟩
      · rintro u - hu; cases hu
      · exact Subsumes.of_nil _
      · exact exploreNode_subsumes (fun g m => ih (by omega) g m) rules

/-- **The order of the rules does not matter.** Over a permutation of the rules, the
search fails exactly when it failed before, and otherwise finds the same answers
with the same number of draws. -/
theorem explore_perm {rules' : List Clause} (hperm : rules.Perm rules') :
    ∀ (fuel : Nat) (goal : List Literal) (m : Nat),
      SameOutcome (explore rules grounded fuel goal m) (explore rules' grounded fuel goal m) := by
  intro fuel
  induction fuel with
  | zero =>
      intro goal m
      by_cases hg : goal = []
      · subst hg; rw [explore_nil, explore_nil]; exact SameOutcome.refl _
      · rw [explore_zero hg, explore_zero hg]; exact SameOutcome.refl _
  | succ fuel ih =>
      intro goal m
      by_cases hg : goal = []
      · subst hg; rw [explore_nil, explore_nil]; exact SameOutcome.refl _
      rw [explore_succ hg, explore_succ hg]
      rcases selectLiteral grounded goal with e | _ | ⟨lid, l⟩
      · trivial
      · exact SameOutcome.refl (.ok ([], 0))
      · exact exploreNode_sameOutcome ih hperm

end Modus.Sld
