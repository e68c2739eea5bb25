import Modus.Sld.Exploration
import Modus.Sld.Derivation

/-!
# `inner` computes `explore`

`inner` and `explore` make the same choices at every node: `select` reads only
positions, predicates and groundness, and unification and the builtins commute
with renaming ids (`Modus.Equivariance`). They differ in the ids a path draws:
`inner` renames a rule at the counter the whole search has reached, `explore` at
the counter its own path has reached. So a node of the one and a node of the other
are related (`Sim`) by an id map `f` from the ids `explore` drew to those `inner`
drew; going down an edge, the map is extended by the window the rule's renaming
drew in each (`shiftId`). While the draws fit in `2 ^ 32`, no map identifies two
ids, and:

* when `inner` succeeds, so does `explore`, with as many draws
  (`explore_of_inner`);
* when `explore` succeeds and its draws fit, `inner` succeeds with as many draws,
  builds a tree exactly when `explore` finds an answer, and every answer of the
  tree is an answer of `explore` with ids renamed, in order (`inner_of_explore`).

Depth monotonicity and the independence of the clause order are proved of
`explore` (`explore_mono`, `explore_perm` in `Modus.Sld.Exploration`); through
these two theorems they hold of `inner` up to renaming the ids of fresh variables;
`Modus.Sld.Comparison` states them of `sld`.

## Main results

* `explore_of_inner`, `inner_of_explore` — `inner` refines `explore`.
-/

namespace Modus.Sld

open Modus.Logic Modus.Builtin

/-! ## Selection and the builtins see no ids -/

theorem zip_all_mapId (f : UInt32 → UInt32) (l : Literal) (m : List Bool) :
    ((l.mapId f).args.zip m).all (fun (t, a) => a || t.isGround) =
      (l.args.zip m).all fun (t, a) => a || t.isGround := by
  simp [List.zip_map_left, List.all_map, Function.comp_def]

/-- `select` makes the same choice on a goal with renamed ids. -/
theorem selectFrom_mapId {f : UInt32 → UInt32} (grounded : GroundnessMap) :
    ∀ (g g' : GoalWithHistory) (k : Nat), g.map (·.literal) = g'.map (·.literal.mapId f) →
      (selectFrom grounded k g).map (Option.map fun p => (p.1, p.2.literal)) =
        (selectFrom grounded k g').map (Option.map fun p => (p.1, p.2.literal.mapId f))
  | [], [], _, _ => rfl
  | [], _ :: _, _, h => by cases h
  | _ :: _, [], _, h => by cases h
  | lh :: g, lh' :: g', k, h => by
      simp only [List.map_cons, List.cons.injEq] at h
      obtain ⟨hl, hg⟩ := h
      have ih := selectFrom_mapId grounded g g' (k + 1) hg
      rw [selectFrom, selectFrom, hl, selectBuiltin_mapId, Literal.signature_mapId,
        Literal.position_mapId]
      split
      · simp [Except.map, hl]
      · split
        · rw [zip_all_mapId]
          split
          · simp [Except.map, hl]
          · exact ih
        · split
          · exact ih
          · split <;> rfl

/-- `selectLiteral` is `select`, on the literals of a goal with renamed ids. -/
theorem select_mapId {f : UInt32 → UInt32} (grounded : GroundnessMap) {g : GoalWithHistory}
    {g' : List Literal} (h : g.map (·.literal) = g'.map (·.mapId f)) :
    (select grounded g).map (Option.map fun p => (p.1, p.2.literal)) =
      (selectLiteral grounded g').map (Option.map fun p => (p.1, p.2.mapId f)) := by
  rw [select, selectFrom_mapId grounded g (g'.map bare) 0
    (by simpa [Function.comp_def, bare] using h), selectLiteral, select]
  rcases selectFrom grounded 0 (g'.map bare) with _ | _ | _ <;> rfl

theorem map_eraseIdx {α β : Type} (f : α → β) :
    ∀ (l : List α) (i : Nat), (l.eraseIdx i).map f = (l.map f).eraseIdx i
  | [], _ => rfl
  | _ :: _, 0 => rfl
  | a :: l, i + 1 => by simp [map_eraseIdx f l i]

/-- The literals of `resolve` are `resolveGoal` of the literals. -/
theorem literals_resolve_eq (lid : Nat) (rid : ClauseId) (goal : GoalWithHistory)
    (mgu : Substitution) (rule : Clause) (level : Nat) :
    (resolve lid rid goal mgu rule level).map (·.literal) =
      resolveGoal lid (goal.map (·.literal)) mgu rule.body := by
  rw [literals_resolve, resolveGoal, map_eraseIdx]

section Resolve

variable {f : UInt32 → UInt32} {lo hi : Nat}

/-- A goal with renamed ids resolves to the resolvent with renamed ids. -/
theorem resolveGoal_mapId (hf : IdInjective f lo hi) {lid : Nat} {goal body : List Literal}
    {mgu : Substitution} (hgoal : ∀ l ∈ goal, l.IdsIn lo hi) (hbody : ∀ b ∈ body, b.IdsIn lo hi)
    (hmgu : mgu.IdsIn lo hi) :
    resolveGoal lid (goal.map (·.mapId f)) (mgu.mapId f) (body.map (·.mapId f)) =
      (resolveGoal lid goal mgu body).map (·.mapId f) := by
  simp only [resolveGoal, ← map_eraseIdx, ← List.map_append, List.map_map]
  refine List.map_congr_left fun l hl => ?_
  have hl' : l.IdsIn lo hi := by
    rcases List.mem_append.mp hl with hl | hl
    · exact hgoal l (List.mem_of_mem_eraseIdx hl)
    · exact hbody l hl
  exact (Literal.substitute_mapId hf (fun kv h => (hmgu kv h).1) hl').symm

/-- The resolvent of literals with ids in a window keeps its ids in the window. -/
theorem resolveGoal_idsIn {lid : Nat} {goal body : List Literal} {mgu : Substitution}
    (hgoal : ∀ l ∈ goal, l.IdsIn lo hi) (hbody : ∀ b ∈ body, b.IdsIn lo hi)
    (hmgu : mgu.IdsIn lo hi) : ∀ l ∈ resolveGoal lid goal mgu body, l.IdsIn lo hi := by
  intro l hl t ht
  obtain ⟨l₀, hl₀, rfl⟩ := List.mem_map.mp hl
  obtain ⟨t₀, ht₀, rfl⟩ := List.mem_map.mp ht
  have hl₀' : l₀.IdsIn lo hi := by
    rcases List.mem_append.mp hl₀ with hl₀ | hl₀
    · exact hgoal l₀ (List.mem_of_mem_eraseIdx hl₀)
    · exact hbody l₀ hl₀
  exact IRTerm.substitute_closed _ (hl₀' t₀ ht₀) fun kv h => (hmgu kv h).2

/-- The builtin resolvent of a renamed literal is the builtin resolvent, renamed. -/
theorem builtinResolve_mapId (hf : IdInjective f lo hi) (lid level : Nat)
    {lh : LiteralWithHistory} {l : Literal} {goal : GoalWithHistory} {goal' : List Literal}
    (hl : lh.literal = l.mapId f) (hlIds : l.IdsIn lo hi)
    (hgoal : goal.map (·.literal) = goal'.map (·.mapId f)) (hgoalIds : ∀ l ∈ goal', l.IdsIn lo hi) :
    (builtinResolve lid lh goal level).map (Option.map fun r => (r.2.1, r.2.2.2.map (·.literal))) =
      (builtinStep lid l goal').map (Option.map fun r => (r.1.mapId f, r.2.map (·.mapId f))) := by
  unfold builtinResolve builtinStep
  rw [hl, selectBuiltin_mapId]
  rcases selectBuiltin l with ⟨_ | _ | _, _ | p⟩ <;> try rfl
  dsimp only
  rw [BuiltinPredicate.resolvent_mapId hf p hlIds]
  rcases hres : p.resolvent l with msg | _ | ⟨head, mgu⟩
  · rfl
  · rfl
  · have hmgu := (BuiltinPredicate.resolvent_idsIn hres hlIds).2
    simp only [Except.map, Option.map_some', literals_resolve_eq, hgoal]
    rw [← resolveGoal_mapId hf hgoalIds (by simp) hmgu]
    rfl

end Resolve

/-! ## Related nodes -/

/-- A node of `inner` at counter `n` and a node of `explore` at counter `m` that
agree up to the id map `f`: the literals of the first are those of the second with
ids renamed; the second's ids were drawn in `[mlo, m)`, and `f` sends them, no two
to one, to ids the first drew in `[lo, n)`; the second drew no more than the first. -/
structure Sim (f : UInt32 → UInt32) (lo n mlo m : Nat) (goal : GoalWithHistory)
    (goal' : List Literal) : Prop where
  literals : goal.map (·.literal) = goal'.map (·.mapId f)
  idsIn : ∀ l ∈ goal', l.IdsIn mlo m
  maps : ∀ k, mlo ≤ k → k < m → ∃ k', lo ≤ k' ∧ k' < n ∧ f (UInt32.ofNat k) = UInt32.ofNat k'
  inj : IdInjective f mlo m
  lo_le : lo ≤ n
  mlo_le : mlo ≤ m
  draws : m - mlo ≤ n - lo

section Step

variable {f : UInt32 → UInt32} {lo n mlo m : Nat} {goal : GoalWithHistory} {goal' : List Literal}

/-- The literal selected at a node, and its counterpart. -/
theorem Sim.select_eq (hS : Sim f lo n mlo m goal goal') (grounded : GroundnessMap) :
    (select grounded goal).map (Option.map fun p => (p.1, p.2.literal)) =
      (selectLiteral grounded goal').map (Option.map fun p => (p.1, p.2.mapId f)) :=
  select_mapId grounded hS.literals

/-- Only the empty goal is related to the empty goal. -/
theorem Sim.eq_nil (hS : Sim f lo n mlo m goal []) : goal = [] := by
  simpa using hS.literals

/-- A goal related to a non-empty goal is non-empty. -/
theorem Sim.exists_cons {l' : Literal} {g' : List Literal} (hS : Sim f lo n mlo m goal (l' :: g')) :
    ∃ lh g, goal = lh :: g := by
  cases goal with
  | nil => cases hS.literals
  | cons lh g => exact ⟨lh, g, rfl⟩

theorem selectLiteral_mem {grounded : GroundnessMap} {lid : Nat} {l : Literal}
    (h : selectLiteral grounded goal' = .ok (some (lid, l))) : l ∈ goal' := by
  unfold selectLiteral at h
  rcases hs : select grounded (goal'.map bare) with e | _ | ⟨lid', lh⟩ <;> rw [hs] at h <;>
    simp only [Except.map, Except.ok.injEq, Option.map_some', Option.some.injEq, Prod.mk.injEq,
      reduceCtorEq, Option.map_none'] at h
  obtain ⟨rfl, rfl⟩ := h
  obtain ⟨-, hget⟩ := selectFrom_some hs
  obtain ⟨l, hl, rfl⟩ := List.mem_map.mp (List.mem_iff_getElem?.mpr ⟨_, hget⟩)
  exact hl

theorem builtinStep_some {lo hi lid : Nat} {l : Literal} {goal : List Literal} {mgu : Substitution}
    {g : List Literal} (h : builtinStep lid l goal = .ok (some (mgu, g))) (hl : l.IdsIn lo hi) :
    mgu.IdsIn lo hi ∧ g = resolveGoal lid goal mgu [] := by
  unfold builtinStep at h
  split at h
  · split at h
    · cases h
    · cases h
    · rename_i hres
      cases h
      exact ⟨(BuiltinPredicate.resolvent_idsIn hres hl).2, rfl⟩
  · cases h

/-- Down a builtin edge the counters stay, and so does the id map. -/
theorem Sim.builtin (hS : Sim f lo n mlo m goal goal') {lid : Nat} {l : Literal}
    (hl : l ∈ goal') {mgu : Substitution} {g : GoalWithHistory} {g' : List Literal}
    (hstep : builtinStep lid l goal' = .ok (some (mgu, g')))
    (hg : g.map (·.literal) = g'.map (·.mapId f)) : Sim f lo n mlo m g g' := by
  obtain ⟨hmgu, rfl⟩ := builtinStep_some hstep (hS.idsIn l hl)
  exact ⟨hg, resolveGoal_idsIn hS.idsIn (by simp) hmgu, hS.maps, hS.inj, hS.lo_le, hS.mlo_le,
    hS.draws⟩

/-- `select` on related nodes: both select nothing, or both select at the same
index literals that correspond, or both fail alike. -/
theorem Sim.select_cases (hS : Sim f lo n mlo m goal goal') (grounded : GroundnessMap) :
    (select grounded goal = .ok none ∧ selectLiteral grounded goal' = .ok none) ∨
      (∃ lid lh l, select grounded goal = .ok (some (lid, lh)) ∧
        selectLiteral grounded goal' = .ok (some (lid, l)) ∧ lh.literal = l.mapId f ∧ l ∈ goal') ∨
      ∃ e, select grounded goal = .error e ∧ selectLiteral grounded goal' = .error e := by
  have h := hS.select_eq grounded
  rcases hA : select grounded goal with e | _ | ⟨lid, lh⟩ <;>
    rcases hB : selectLiteral grounded goal' with e' | _ | ⟨lid', l⟩ <;>
    rw [hA, hB] at h <;> simp only [Except.map, reduceCtorEq, Except.error.injEq,
      Except.ok.injEq, Option.map_some', Option.map_none', Option.some.injEq, Prod.mk.injEq] at h
  · exact .inr (.inr ⟨e, rfl, by rw [h]⟩)
  · exact .inl ⟨rfl, rfl⟩
  · obtain ⟨rfl, hl⟩ := h
    exact .inr (.inl ⟨lid, lh, l, rfl, rfl, hl, selectLiteral_mem hB⟩)

/-- The builtin part on related nodes: both have no resolvent, or both have one, with
corresponding unifiers and resolvents, or both fail alike. -/
theorem Sim.builtin_cases (hS : Sim f lo n mlo m goal goal') (lid level : Nat)
    {lh : LiteralWithHistory} {l : Literal} (hl : l ∈ goal') (hlh : lh.literal = l.mapId f) :
    (builtinResolve lid lh goal level = .ok none ∧ builtinStep lid l goal' = .ok none) ∨
      (∃ cid mgu ren g mgu' g', builtinResolve lid lh goal level = .ok (some (cid, mgu, ren, g)) ∧
        builtinStep lid l goal' = .ok (some (mgu', g')) ∧ mgu = mgu'.mapId f ∧
        g.map (·.literal) = g'.map (·.mapId f)) ∨
      ∃ e, builtinResolve lid lh goal level = .error e ∧ builtinStep lid l goal' = .error e := by
  have h := builtinResolve_mapId hS.inj lid level hlh (hS.idsIn l hl) hS.literals hS.idsIn
  rcases hA : builtinResolve lid lh goal level with e | _ | ⟨cid, mgu, ren, g⟩ <;>
    rcases hB : builtinStep lid l goal' with e' | _ | ⟨mgu', g'⟩ <;>
    rw [hA, hB] at h <;> simp only [Except.map, reduceCtorEq, Except.error.injEq,
      Except.ok.injEq, Option.map_some', Option.map_none', Option.some.injEq, Prod.mk.injEq] at h
  · exact .inr (.inr ⟨e, rfl, by rw [h]⟩)
  · exact .inl ⟨rfl, rfl⟩
  · exact .inr (.inl ⟨cid, mgu, ren, g, mgu', g', rfl, rfl, h.1, h.2⟩)

/-- Extending the id map by the windows a rule's renaming drew in each search: it
keeps the old ids, sends the window onto the window, and stays injective with its
image drawn by `inner`, while `inner`'s draws fit in `2 ^ 32`. -/
theorem Sim.shift (hS : Sim f lo n mlo m goal goal') {n₀ v : Nat} (hn₀ : n ≤ n₀)
    (hfit : n₀ + v ≤ lo + 2 ^ 32) :
    (∀ k, mlo ≤ k → k < m → shiftId f m n₀ v (UInt32.ofNat k) = f (UInt32.ofNat k)) ∧
      (∀ j < v, shiftId f m n₀ v (UInt32.ofNat (m + j)) = UInt32.ofNat (n₀ + j)) ∧
      IdInjective (shiftId f m n₀ v) mlo (m + v) ∧
      ∀ k, mlo ≤ k → k < m + v →
        ∃ k', lo ≤ k' ∧ k' < n₀ + v ∧ shiftId f m n₀ v (UInt32.ofNat k) = UInt32.ofNat k' := by
  have hd := hS.draws
  have hlo := hS.lo_le
  have hmlo := hS.mlo_le
  have hold : ∀ k, mlo ≤ k → k < m → shiftId f m n₀ v (UInt32.ofNat k) = f (UInt32.ofNat k) :=
    fun k h₁ h₂ => shiftId_before h₁ h₂ (by omega)
  have hnew : ∀ j < v, shiftId f m n₀ v (UInt32.ofNat (m + j)) = UInt32.ofNat (n₀ + j) :=
    fun j hj => shiftId_window hj (by omega)
  /- An id of the window and an old id go to different ids: the old one was drawn
  before `n₀`, the new one after, all within `2 ^ 32` draws of `lo`. -/
  have hsep : ∀ k j, mlo ≤ k → k < m → j < v →
      f (UInt32.ofNat k) ≠ UInt32.ofNat (n₀ + j) := by
    intro k j h₁ h₂ hj he
    obtain ⟨k', h₁', h₂', hk'⟩ := hS.maps k h₁ h₂
    rw [hk'] at he
    have := ofNat_injective_window h₁' (show lo ≤ n₀ + j by omega) (by omega) (by omega) he
    omega
  refine ⟨hold, hnew, fun k k' h₁ h₂ h₁' h₂' he => ?_, fun k h₁ h₂ => ?_⟩
  · by_cases hk : k < m <;> by_cases hk' : k' < m
    · rw [hold k h₁ hk, hold k' h₁' hk'] at he
      exact hS.inj k k' h₁ hk h₁' hk' he
    · obtain ⟨j', rfl⟩ : ∃ j', k' = m + j' := ⟨k' - m, by omega⟩
      rw [hold k h₁ hk, hnew j' (by omega)] at he
      exact absurd he (hsep k j' h₁ hk (by omega))
    · obtain ⟨j, rfl⟩ : ∃ j, k = m + j := ⟨k - m, by omega⟩
      rw [hold k' h₁' hk', hnew j (by omega)] at he
      exact absurd he.symm (hsep k' j h₁' hk' (by omega))
    · obtain ⟨j, rfl⟩ : ∃ j, k = m + j := ⟨k - m, by omega⟩
      obtain ⟨j', rfl⟩ : ∃ j', k' = m + j' := ⟨k' - m, by omega⟩
      rw [hnew j (by omega), hnew j' (by omega)] at he
      have := ofNat_injective_window (Nat.le_add_right n₀ j) (Nat.le_add_right n₀ j')
        (by omega) (by omega) he
      rw [show j = j' by omega]
  · by_cases hk : k < m
    · obtain ⟨k', h₁', h₂', hk'⟩ := hS.maps k h₁ hk
      exact ⟨k', h₁', by omega, (hold k h₁ hk).trans hk'⟩
    · obtain ⟨j, rfl⟩ : ∃ j, k = m + j := ⟨k - m, by omega⟩
      exact ⟨n₀ + j, by omega, by omega, hnew j (by omega)⟩

/-- The literals of a rule renamed at `m` draw their ids in `[mlo, m + v)`. -/
theorem Sim.renamed_idsIn (hS : Sim f lo n mlo m goal goal') (c : Clause) :
    ∀ b, b = (c.renameWithSub m).1.1.head ∨ b ∈ (c.renameWithSub m).1.1.body →
      b.IdsIn mlo (m + c.vars.dedup.length) := fun b hb => by
  have := Clause.renameWithSub_idsIn c m b hb
  rw [Clause.renameWithSub_snd] at this
  exact this.mono hS.mlo_le le_rfl

/-- The unifier of a rule renamed at `m` with a literal of the goal draws its ids in
`[mlo, m + v)`. -/
theorem Sim.unify_idsIn (hS : Sim f lo n mlo m goal goal') (c : Clause) {l : Literal}
    (hl : l ∈ goal') {mgu : Substitution} (hmgu : (c.renameWithSub m).1.1.head.unify l = some mgu) :
    mgu.IdsIn mlo (m + c.vars.dedup.length) :=
  Literal.unify_closed _ hmgu (hS.renamed_idsIn c _ (.inl rfl))
    ((hS.idsIn l hl).mono le_rfl (by omega))

/-- Down a rule edge, `inner` renames the rule at `n₀` and `explore` at `m`: under the
id map extended by the two windows, the unifiers correspond, and so do the
resolvents. -/
theorem Sim.rule (hS : Sim f lo n mlo m goal goal') {n₀ : Nat} (hn₀ : n ≤ n₀) (c : Clause)
    (hfit : n₀ + c.vars.dedup.length ≤ lo + 2 ^ 32) {lh : LiteralWithHistory} {l : Literal}
    (hl : l ∈ goal') (hlh : lh.literal = l.mapId f) :
    (c.renameWithSub n₀).1.1.head.unify lh.literal =
        ((c.renameWithSub m).1.1.head.unify l).map (·.mapId (shiftId f m n₀ c.vars.dedup.length)) ∧
      ∀ mgu, (c.renameWithSub m).1.1.head.unify l = some mgu → ∀ lid rid level,
        Sim (shiftId f m n₀ c.vars.dedup.length) lo (n₀ + c.vars.dedup.length) mlo
          (m + c.vars.dedup.length)
          (resolve lid (.rule rid) goal (mgu.mapId (shiftId f m n₀ c.vars.dedup.length))
            (c.renameWithSub n₀).1.1 (level + 1))
          (resolveGoal lid goal' mgu (c.renameWithSub m).1.1.body) := by
  obtain ⟨hold, hnew, hinj, hmaps⟩ := hS.shift hn₀ hfit
  have hren := Clause.renameWithSub_shift c m n₀ hnew
  have hcl := hS.renamed_idsIn c
  have hgoal' : ∀ l ∈ goal', l.IdsIn mlo (m + c.vars.dedup.length) :=
    fun l hl => (hS.idsIn l hl).mono le_rfl (by omega)
  have hshift : ∀ l ∈ goal', l.mapId f = l.mapId (shiftId f m n₀ c.vars.dedup.length) :=
    fun l hl => Literal.mapId_congr (hS.idsIn l hl) fun k h₁ h₂ => (hold k h₁ h₂).symm
  refine ⟨?_, fun mgu hmgu lid rid level => ?_⟩
  · rw [hren, hlh, hshift l hl]
    exact Literal.unify_mapId hinj (hcl _ (.inl rfl)) (hgoal' l hl)
  have hmguIds := hS.unify_idsIn c hl hmgu
  have hd := hS.draws
  have hmlo := hS.mlo_le
  have hlo := hS.lo_le
  refine ⟨?_, resolveGoal_idsIn hgoal' (fun b hb => hcl b (.inr hb)) hmguIds, hmaps, hinj,
    by omega, by omega, by omega⟩
  rw [literals_resolve_eq, hS.literals, List.map_congr_left hshift, hren]
  exact resolveGoal_mapId hinj hgoal' (fun b hb => hcl b (.inr hb)) hmguIds

end Step

/-! ## `inner` refines `explore` -/

section Refinement

variable {rules : List Clause} {grounded : GroundnessMap} {lo mlo : Nat}

/-- What `explore_of_inner` says of one level of the search: from related nodes, a
successful call of `visit` within the draws has a successful counterpart in
`visit'`, with as many draws. -/
def Reflects (lo mlo : Nat) (visit : GoalWithHistory → Nat → Except Fault (Option Tree × Nat))
    (visit' : List Literal → Nat → Except Fault (List Substitution × Nat)) : Prop :=
  ∀ f n m g g' r n', Sim f lo n mlo m g g' → visit g n = .ok (r, n') → n' ≤ lo + 2 ^ 32 →
    ∃ L, visit' g' m = .ok (L, n' - n)

/-- The rule loop of `inner` on related nodes: when it succeeds within the draws, so
does the rule part of `explore`, with as many draws. -/
theorem gather_of_ruleResolvents
    {visit : GoalWithHistory → Nat → Except Fault (Option Tree × Nat)}
    {visit' : List Literal → Nat → Except Fault (List Substitution × Nat)}
    (hvisit : Reflects lo mlo visit visit') (hle : ∀ g a r b, visit g a = .ok (r, b) → a ≤ b)
    {f : UInt32 → UInt32} {n m : Nat} {goal : GoalWithHistory} {goal' : List Literal}
    (hS : Sim f lo n mlo m goal goal') (lid level : Nat) {lh : LiteralWithHistory} {l : Literal}
    (hl : l ∈ goal') (hlh : lh.literal = l.mapId f) :
    ∀ (cs : List Clause) (rid n₀ : Nat) (es : List Entry) (n' : Nat), n ≤ n₀ →
      ruleResolvents visit lid lh goal level rid cs n₀ = .ok (es, n') → n' ≤ lo + 2 ^ 32 →
      ∃ L, gather (ruleStep visit' lid l goal' m) cs = .ok (L, n' - n₀)
  | [], _, n₀, es, n', _, h, _ => by cases h; exact ⟨[], by simp [gather_nil]⟩
  | c :: cs, rid, n₀, es, n', hn₀, h, hb => by
      have ih := gather_of_ruleResolvents hvisit hle hS lid level hl hlh cs (rid + 1)
      rw [gather_cons, ruleStep]
      unfold ruleResolvents at h
      have hsig : c.head.signature = lh.literal.signature ↔ c.head.signature = l.signature := by
        rw [hlh, Literal.signature_mapId]
      by_cases hs : c.head.signature = l.signature
      swap
      · rw [if_neg (mt hsig.mp hs)] at h
        obtain ⟨L, hL⟩ := ih n₀ es n' hn₀ h hb
        exact ⟨[] ++ L, by simp [hs, pure, Except.pure, hL]⟩
      rw [if_pos (hsig.mpr hs)] at h
      rw [if_pos hs]
      have hren := Clause.renameWithSub_snd c n₀
      have hrenm := Clause.renameWithSub_snd c m
      cases hua : (c.renameWithSub n₀).1.1.head.unify lh.literal with
      | none =>
          simp only [hua] at h
          have hle' := ruleResolvents_le hle h
          obtain ⟨hu, -⟩ := hS.rule hn₀ c (by omega) hl hlh
          rw [hua] at hu
          cases hum : (c.renameWithSub m).1.1.head.unify l with
          | some mgu => rw [hum] at hu; cases hu
          | none =>
              obtain ⟨L, hL⟩ := ih _ es n' (by omega) h hb
              refine ⟨[] ++ L, ?_⟩
              simp only [pure, Except.pure, ok_bind, hL, Except.ok.injEq, Prod.mk.injEq, true_and]
              omega
      | some mgu =>
          simp only [hua] at h
          obtain ⟨⟨t?, n₁⟩, hv, h⟩ := bind_eq_ok.mp h
          obtain ⟨⟨es', n₂⟩, hr, h⟩ := bind_eq_ok.mp h
          obtain rfl : n₂ = n' := congrArg Prod.snd (Except.ok.inj h)
          have h₁ := hle _ _ _ _ hv
          have h₂ := ruleResolvents_le hle hr
          obtain ⟨hu, hsim⟩ := hS.rule hn₀ c (by omega) hl hlh
          rw [hua] at hu
          cases hum : (c.renameWithSub m).1.1.head.unify l with
          | none => rw [hum] at hu; cases hu
          | some mgu' =>
              rw [hum] at hu
              obtain rfl := Option.some.inj hu
              rw [hren] at hv
              obtain ⟨Lc, hLc⟩ := hvisit _ _ _ _ _ _ _ (hsim mgu' hum lid rid level) hv (by omega)
              obtain ⟨Lr, hLr⟩ := ih n₁ es' n₂ (by omega) hr hb
              refine ⟨Lc.map (composeExtend mgu') ++ Lr, ?_⟩
              simp only [hrenm, hLc, hLr, ok_bind, pure, Except.pure, Except.ok.injEq, Prod.mk.injEq,
                true_and]
              omega

/-- The builtin part of `inner` on related nodes: when it succeeds within the draws,
so does the builtin part of `explore`, with as many draws. -/
theorem builtinPart_of_builtinResolvents
    {visit : GoalWithHistory → Nat → Except Fault (Option Tree × Nat)}
    {visit' : List Literal → Nat → Except Fault (List Substitution × Nat)}
    (hvisit : Reflects lo mlo visit visit') {f : UInt32 → UInt32} {n m : Nat}
    {goal : GoalWithHistory} {goal' : List Literal} (hS : Sim f lo n mlo m goal goal')
    (lid level : Nat) {lh : LiteralWithHistory} {l : Literal} (hl : l ∈ goal')
    (hlh : lh.literal = l.mapId f) {bs : List Entry} {n₁ : Nat}
    (h : builtinResolvents visit lid lh goal level n = .ok (bs, n₁)) (hb : n₁ ≤ lo + 2 ^ 32) :
    ∃ L, builtinPart visit' lid l goal' m = .ok (L, n₁ - n) := by
  unfold builtinResolvents at h
  unfold builtinPart
  rcases hS.builtin_cases lid level hl hlh with ⟨hA, hB⟩ | ⟨cid, mgu, ren, g, mgu', g', hA, hB, -, hg⟩ |
    ⟨e, hA, -⟩
  · rw [hA] at h
    cases h
    exact ⟨[], by simp [hB, pure, Except.pure]⟩
  · simp only [hA, ok_bind] at h
    obtain ⟨⟨t?, n₂⟩, hv, h⟩ := bind_eq_ok.mp h
    obtain rfl : n₂ = n₁ := congrArg Prod.snd (Except.ok.inj h)
    obtain ⟨L, hL⟩ := hvisit f n m g g' t? _ (hS.builtin hl hB hg) hv hb
    exact ⟨L.map (composeExtend mgu'), by simp [hB, hL, pure, Except.pure]⟩
  · rw [hA] at h; cases h

/-- **`inner` refines `explore`, forward.** From related nodes, when `inner` succeeds
within the draws, `explore` succeeds with as many draws. -/
theorem explore_of_inner (fuel : Nat) :
    ∀ level, Reflects lo mlo (fun g n => inner rules grounded fuel g level n)
      (fun g' m => explore rules grounded fuel g' m) := by
  induction fuel with
  | zero =>
      intro level f n m g g' r n' hS h _
      dsimp only at h ⊢
      cases g' with
      | nil =>
          obtain rfl := hS.eq_nil
          rw [inner_nil] at h; cases h
          exact ⟨[[]], by simp⟩
      | cons l' g' =>
          obtain ⟨lh, g, rfl⟩ := hS.exists_cons
          cases h
          exact ⟨[], by rw [explore_zero (List.cons_ne_nil _ _)]; simp⟩
  | succ fuel ih =>
      intro level f n m g g' r n' hS h hb
      dsimp only at h ⊢
      cases g' with
      | nil =>
          obtain rfl := hS.eq_nil
          rw [inner_nil] at h; cases h
          exact ⟨[[]], by simp⟩
      | cons l' g' =>
          obtain ⟨lh, g, rfl⟩ := hS.exists_cons
          rw [explore_succ (List.cons_ne_nil _ _)]
          simp only [inner, List.isEmpty_cons, Bool.false_eq_true, if_false] at h
          obtain ⟨sel, hsel, h⟩ := bind_eq_ok.mp h
          rcases hS.select_cases grounded with ⟨hA, hB⟩ | ⟨lid, lh', l, hA, hB, hlh, hl⟩ | ⟨e, hA, -⟩
          · rw [hA] at hsel; cases hsel
            cases h
            exact ⟨[], by simp [hB, pure, Except.pure]⟩
          · rw [hA] at hsel; cases hsel
            obtain ⟨⟨bs, n₁⟩, hbs, h⟩ := bind_eq_ok.mp h
            obtain ⟨⟨us, n₂⟩, hus, h⟩ := bind_eq_ok.mp h
            obtain rfl : n₂ = n' := by split at h <;> exact congrArg Prod.snd (Except.ok.inj h)
            have h₁ := builtinResolvents_le (fun _ _ _ _ => inner_le fuel) hbs
            have h₂ := ruleResolvents_le (fun _ _ _ _ => inner_le fuel) hus
            obtain ⟨Lb, hLb⟩ := builtinPart_of_builtinResolvents (ih (level + 1)) hS lid level hl
              hlh hbs (by omega)
            obtain ⟨Lr, hLr⟩ := gather_of_ruleResolvents (ih (level + 1))
              (fun _ _ _ _ => inner_le fuel) hS lid level hl hlh rules 0 n₁ us n₂ h₁ hus hb
            refine ⟨Lb ++ Lr, ?_⟩
            simp only [hB, ok_bind, exploreNode, hLb, hLr, pure, Except.pure, Except.ok.injEq,
              Prod.mk.injEq, true_and]
            omega
          · rw [hA] at hsel; cases hsel

/-! ## `inner` builds the tree of `explore`'s answers -/

/-- An answer of `inner`'s tree and one of `explore` that agree: the first is the
second with ids renamed by a map that extends `f` on `[mlo, m)` and identifies no
two ids of the second. -/
def Corr (f : UInt32 → UInt32) (mlo m : Nat) (σ σ' : Substitution) : Prop :=
  ∃ f' M, m ≤ M ∧ (∀ k, mlo ≤ k → k < m → f' (UInt32.ofNat k) = f (UInt32.ofNat k)) ∧
    IdInjective f' mlo M ∧ σ'.IdsIn mlo M ∧ σ = σ'.mapId f'

/-- The result of `inner` and the answers of `explore` at related nodes: no tree and
no answer, or a tree whose answers are those of `explore`, renamed, in order. -/
def Matches (f : UInt32 → UInt32) (mlo m : Nat) : Option Tree → List Substitution → Prop
  | none, L => L = []
  | some t, L => L ≠ [] ∧ List.Forall₂ (Corr f mlo m) (solutionsInner t) L

/-- A list of entries of a resolvent map and answers of `explore`: none of either, or
the entries' answers are those of `explore`, renamed, in order. -/
def EntriesMatch (f : UInt32 → UInt32) (mlo m : Nat) (es : List Entry) (L : List Substitution) :
    Prop :=
  (es = [] ↔ L = []) ∧ List.Forall₂ (Corr f mlo m) (solutionsAll es) L

/-- Composing agreeing answers with agreeing unifiers: the unifier of an edge, whose
ids were drawn before `m₁`, renamed by the edge's map `f₁`, which extends `f`. -/
theorem Corr.compose {f f₁ : UInt32 → UInt32} {m m₁ : Nat} {σ σ' mgu : Substitution}
    (hσ : Corr f₁ mlo m₁ σ σ') (hmgu : mgu.IdsIn mlo m₁)
    (hf : ∀ k, mlo ≤ k → k < m → f₁ (UInt32.ofNat k) = f (UInt32.ofNat k)) (hm : m ≤ m₁) :
    Corr f mlo m (composeExtend (mgu.mapId f₁) σ) (composeExtend mgu σ') := by
  obtain ⟨f₂, M, hM, hf₂, hinj, hids, rfl⟩ := hσ
  have hmgu' : mgu.IdsIn mlo M := hmgu.mono le_rfl hM
  refine ⟨f₂, M, by omega, fun k h₁ h₂ => (hf₂ k h₁ (by omega)).trans (hf k h₁ h₂), hinj,
    composeExtend_closed _ hmgu' hids, ?_⟩
  rw [composeExtend_mapId hinj hmgu' hids,
    Substitution.mapId_congr hmgu fun k h₁ h₂ => (hf₂ k h₁ h₂).symm]

/-- The entry a child adds to a resolvent map, and its answers. -/
theorem EntriesMatch.child {f f₁ : UInt32 → UInt32} {m m₁ : Nat} {r : Option Tree}
    {ss : List Substitution} (hr : Matches f₁ mlo m₁ r ss) {mgu : Substitution}
    (hmgu : mgu.IdsIn mlo m₁) (hf : ∀ k, mlo ≤ k → k < m → f₁ (UInt32.ofNat k) = f (UInt32.ofNat k))
    (hm : m ≤ m₁) (key : Nat × ClauseId) (ren : Substitution) {es : List Entry}
    {L : List Substitution} (hes : EntriesMatch f mlo m es L) :
    EntriesMatch f mlo m ((match r with
      | some t => [(key, mgu.mapId f₁, ren, t)]
      | none => []) ++ es) (ss.map (composeExtend mgu) ++ L) := by
  cases r with
  | none =>
      cases hr
      exact hes
  | some t =>
      obtain ⟨hne, hall⟩ := hr
      refine ⟨by simp [hne], ?_⟩
      simp only [List.singleton_append, solutionsAll]
      refine List.rel_append ?_ hes.2
      rw [List.forall₂_map_left_iff, List.forall₂_map_right_iff]
      exact hall.imp fun σ σ' h => h.compose hmgu hf hm

/-- What `inner_of_explore` says of one level of the search: from related nodes, a
successful call of `visit'` whose draws fit has a successful counterpart in `visit`,
with as many draws, whose tree has the answers of `visit'`. -/
def Refines (lo mlo : Nat) (visit : GoalWithHistory → Nat → Except Fault (Option Tree × Nat))
    (visit' : List Literal → Nat → Except Fault (List Substitution × Nat)) : Prop :=
  ∀ f n m g g' L d, Sim f lo n mlo m g g' → visit' g' m = .ok (L, d) → n + d ≤ lo + 2 ^ 32 →
    ∃ r, visit g n = .ok (r, n + d) ∧ Matches f mlo m r L

/-- The builtin part of `explore` on related nodes: when it succeeds and its draws
fit, so does the builtin part of `inner`, with as many draws and the same answers. -/
theorem builtinResolvents_of_builtinPart
    {visit : GoalWithHistory → Nat → Except Fault (Option Tree × Nat)}
    {visit' : List Literal → Nat → Except Fault (List Substitution × Nat)}
    (hvisit : Refines lo mlo visit visit') {f : UInt32 → UInt32} {n m : Nat}
    {goal : GoalWithHistory} {goal' : List Literal} (hS : Sim f lo n mlo m goal goal')
    (lid level : Nat) {lh : LiteralWithHistory} {l : Literal} (hl : l ∈ goal')
    (hlh : lh.literal = l.mapId f) {L : List Substitution} {d : Nat}
    (h : builtinPart visit' lid l goal' m = .ok (L, d)) (hb : n + d ≤ lo + 2 ^ 32) :
    ∃ es, builtinResolvents visit lid lh goal level n = .ok (es, n + d) ∧
      EntriesMatch f mlo m es L := by
  unfold builtinResolvents
  unfold builtinPart at h
  rcases hS.builtin_cases lid level hl hlh with ⟨hA, hB⟩ | ⟨cid, mgu, ren, g, mgu', g', hA, hB, rfl, hg⟩ |
    ⟨e, -, hB⟩
  · simp only [hB, ok_bind, pure, Except.pure, Except.ok.injEq, Prod.mk.injEq] at h
    obtain ⟨rfl, rfl⟩ := h
    exact ⟨[], by simp [hA, pure, Except.pure], by simp, by simp [solutionsAll]⟩
  · simp only [hB, ok_bind] at h
    obtain ⟨⟨ss, d'⟩, hv, h⟩ := bind_eq_ok.mp h
    simp only [pure, Except.pure, Except.ok.injEq, Prod.mk.injEq] at h
    obtain ⟨rfl, rfl⟩ := h
    obtain ⟨r, hr, hM⟩ := hvisit f n m g g' ss _ (hS.builtin hl hB hg) hv hb
    obtain ⟨hmgu, -⟩ := builtinStep_some hB (hS.idsIn l hl)
    have hchild := EntriesMatch.child hM hmgu (fun _ _ _ => rfl) le_rfl (lid, cid) ren
      (show EntriesMatch f mlo m [] [] from ⟨by simp, by simp [solutionsAll]⟩)
    simp only [List.append_nil] at hchild
    cases r with
    | none => exact ⟨[], by simp [hA, hr, pure, Except.pure], hchild⟩
    | some t => exact ⟨_, by simp [hA, hr, pure, Except.pure], hchild⟩
  · rw [hB] at h; cases h

/-- The rule part of `explore` on related nodes: when it succeeds and its draws fit,
so does the rule loop of `inner`, with as many draws and the same answers. -/
theorem ruleResolvents_of_gather
    {visit : GoalWithHistory → Nat → Except Fault (Option Tree × Nat)}
    {visit' : List Literal → Nat → Except Fault (List Substitution × Nat)}
    (hvisit : Refines lo mlo visit visit') {f : UInt32 → UInt32} {n m : Nat}
    {goal : GoalWithHistory} {goal' : List Literal} (hS : Sim f lo n mlo m goal goal')
    (lid level : Nat) {lh : LiteralWithHistory} {l : Literal} (hl : l ∈ goal')
    (hlh : lh.literal = l.mapId f) :
    ∀ (cs : List Clause) (rid n₀ : Nat) (L : List Substitution) (d : Nat), n ≤ n₀ →
      gather (ruleStep visit' lid l goal' m) cs = .ok (L, d) → n₀ + d ≤ lo + 2 ^ 32 →
      ∃ es, ruleResolvents visit lid lh goal level rid cs n₀ = .ok (es, n₀ + d) ∧
        EntriesMatch f mlo m es L
  | [], _, n₀, L, d, _, h, _ => by
      cases h
      exact ⟨[], rfl, by simp, by simp [solutionsAll]⟩
  | c :: cs, rid, n₀, L, d, hn₀, h, hb => by
      have ih := ruleResolvents_of_gather hvisit hS lid level hl hlh cs (rid + 1)
      rw [gather_cons] at h
      obtain ⟨⟨Lc, dc⟩, hc, h⟩ := bind_eq_ok.mp h
      obtain ⟨⟨Lr, dr⟩, hr, h⟩ := bind_eq_ok.mp h
      simp only [pure, Except.pure, Except.ok.injEq, Prod.mk.injEq] at h
      obtain ⟨rfl, rfl⟩ := h
      unfold ruleResolvents
      rw [ruleStep] at hc
      have hsig : c.head.signature = lh.literal.signature ↔ c.head.signature = l.signature := by
        rw [hlh, Literal.signature_mapId]
      by_cases hs : c.head.signature = l.signature
      swap
      · rw [if_neg hs] at hc
        cases hc
        rw [if_neg (mt hsig.mp hs)]
        obtain ⟨es, hes, hM⟩ := ih n₀ Lr dr hn₀ hr (by simpa using hb)
        exact ⟨es, by simpa using hes, by simpa using hM⟩
      rw [if_pos hs] at hc
      rw [if_pos (hsig.mpr hs)]
      have hren := Clause.renameWithSub_snd c n₀
      have hrenm := Clause.renameWithSub_snd c m
      cases hum : (c.renameWithSub m).1.1.head.unify l with
      | none =>
          simp only [hum, pure, Except.pure, Except.ok.injEq, Prod.mk.injEq] at hc
          obtain ⟨rfl, rfl⟩ := hc
          obtain ⟨hu, -⟩ := hS.rule hn₀ c (by simp at hb; omega) hl hlh
          rw [hum] at hu
          simp only [hu, Option.map_none']
          obtain ⟨es, hes, hM⟩ := ih (c.renameWithSub n₀).2 Lr dr (by omega) hr (by omega)
          exact ⟨es, by rw [hes, hren]; congr 2; omega, by simpa using hM⟩
      | some mgu =>
          simp only [hum] at hc
          obtain ⟨⟨ss, d'⟩, hv, hc⟩ := bind_eq_ok.mp hc
          simp only [pure, Except.pure, Except.ok.injEq, Prod.mk.injEq] at hc
          obtain ⟨rfl, rfl⟩ := hc
          obtain ⟨hu, hsim⟩ := hS.rule hn₀ c (by omega) hl hlh
          rw [hum] at hu
          simp only [hu, Option.map_some']
          rw [hrenm] at hv
          obtain ⟨r, hr', hM⟩ := hvisit _ _ _ _ _ ss d' (hsim mgu hum lid rid level) hv (by omega)
          obtain ⟨es, hes, hMes⟩ := ih (n₀ + c.vars.dedup.length + d') Lr dr (by omega) hr
            (by omega)
          have hchild := EntriesMatch.child hM (hS.unify_idsIn c hl hum) (hS.shift hn₀ (by omega)).1 (by omega)
            (lid, .rule rid) (c.renameWithSub n₀).1.2 hMes
          rw [hren]
          cases r with
          | none =>
              refine ⟨es, ?_, by simpa using hchild⟩
              simp only [hr', ok_bind, hes]
              congr 2; omega
          | some t =>
              refine ⟨_, ?_, hchild⟩
              simp only [hr', ok_bind, hes, pure, Except.pure]
              congr 2; omega

theorem Corr.nil {f : UInt32 → UInt32} {m : Nat} (hf : IdInjective f mlo m) :
    Corr f mlo m [] [] :=
  ⟨f, m, le_rfl, fun _ _ _ => rfl, hf, by simp [Substitution.IdsIn], by simp⟩

theorem EntriesMatch.append {f : UInt32 → UInt32} {m : Nat} {es es' : List Entry}
    {L L' : List Substitution} (h : EntriesMatch f mlo m es L) (h' : EntriesMatch f mlo m es' L') :
    EntriesMatch f mlo m (es ++ es') (L ++ L') :=
  ⟨by simp [h.1, h'.1], by rw [solutionsAll_append]; exact List.rel_append h.2 h'.2⟩

/-- **`inner` refines `explore`, backward.** From related nodes, when `explore`
succeeds and its draws fit, `inner` succeeds with as many draws, builds a tree
exactly when `explore` finds an answer, and the tree's answers are `explore`'s,
renamed, in order. -/
theorem inner_of_explore (fuel : Nat) :
    ∀ level, Refines lo mlo (fun g n => inner rules grounded fuel g level n)
      (fun g' m => explore rules grounded fuel g' m) := by
  induction fuel with
  | zero =>
      intro level f n m g g' L d hS h _
      dsimp only at h ⊢
      cases g' with
      | nil =>
          obtain rfl := hS.eq_nil
          rw [explore_nil] at h; cases h
          exact ⟨_, inner_nil .., by simp, .cons (Corr.nil hS.inj) .nil⟩
      | cons l' g' =>
          obtain ⟨lh, g, rfl⟩ := hS.exists_cons
          rw [explore_zero (List.cons_ne_nil _ _)] at h; cases h
          exact ⟨none, rfl, rfl⟩
  | succ fuel ih =>
      intro level f n m g g' L d hS h hb
      dsimp only at h ⊢
      cases g' with
      | nil =>
          obtain rfl := hS.eq_nil
          rw [explore_nil] at h; cases h
          exact ⟨_, inner_nil .., by simp, .cons (Corr.nil hS.inj) .nil⟩
      | cons l' g' =>
          obtain ⟨lh, g, rfl⟩ := hS.exists_cons
          rw [explore_succ (List.cons_ne_nil _ _)] at h
          simp only [inner, List.isEmpty_cons, Bool.false_eq_true, if_false]
          rcases hS.select_cases grounded with ⟨hA, hB⟩ | ⟨lid, lh', l, hA, hB, hlh, hl⟩ | ⟨e, -, hB⟩
          · simp only [hB, ok_bind, pure, Except.pure, Except.ok.injEq, Prod.mk.injEq] at h
            obtain ⟨rfl, rfl⟩ := h
            exact ⟨none, by rw [hA]; rfl, rfl⟩
          · simp only [hB, ok_bind, exploreNode] at h
            obtain ⟨⟨Lb, d₁⟩, hLb, h⟩ := bind_eq_ok.mp h
            obtain ⟨⟨Lr, d₂⟩, hLr, h⟩ := bind_eq_ok.mp h
            simp only [pure, Except.pure, Except.ok.injEq, Prod.mk.injEq] at h
            obtain ⟨rfl, rfl⟩ := h
            obtain ⟨bs, hbs, hMb⟩ := builtinResolvents_of_builtinPart (ih (level + 1)) hS lid level
              hl hlh hLb (by omega)
            obtain ⟨us, hus, hMu⟩ := ruleResolvents_of_gather (ih (level + 1)) hS lid level hl hlh
              rules 0 (n + d₁) Lr d₂ (by omega) hLr (by omega)
            have hM := hMb.append hMu
            simp only [hA, hbs, hus, ok_bind, ← Nat.add_assoc]
            by_cases he : bs ++ us = []
            · exact ⟨none, by simp [he, pure, Except.pure], hM.1.mp he⟩
            · refine ⟨some (.mk (lh :: g) level (bs ++ us)), by simp [he, pure, Except.pure],
                mt hM.1.mpr he, ?_⟩
              simpa [solutionsInner] using hM.2
          · rw [hB] at h; cases h

end Refinement

end Modus.Sld
