import Modus.Sld.History

/-!
# Proofs and solutions give the same answers

`solutions` composes the unifiers of a tree from the leaves up; `proofs` lists the
root-to-leaf paths with `flatten_compose`, composing from the root down, and reads
each proof's answer through the identity renaming of the goal's variables. Both
walks meet the same substitutions in the same order (`flattenCompose_snd`), and the
identity renaming changes no literal of the goal, so the answers agree. The
de-duplication in `proofs` then keeps one proof per answer.

## Main results

* `substitute_goalIdRenaming` — the identity renaming is invisible on the goal.
* `mem_dedupProofs`, `nodup_dedupProofs` — what the de-duplication keeps.
* `proofs_agree_solutions` — the answers of `proofs` are those of `solutions`, each
  once, and the two walks agree on every tree.
-/

namespace Modus.Sld

open Modus.Logic

/-! ## The identity renaming -/

theorem lookup_map_self {vs : List IRTerm} {v : IRTerm} (h : v ∈ vs) :
    Substitution.lookup (vs.map fun v => (v, v)) v = some v := by
  induction vs with
  | nil => cases h
  | cons w vs ih =>
      by_cases hw : w = v
      · simp [Substitution.lookup, hw]
      · simp [Substitution.lookup, hw, ih ((List.mem_cons.mp h).resolve_left (Ne.symm hw))]

/-- A goal literal under the identity renaming composed with `σ` is the literal
under `σ`. -/
theorem substitute_goalIdRenaming {goal : List Literal} {l : Literal} (hl : l ∈ goal)
    (σ : Substitution) : l.substitute (composeNoExtend (goalIdRenaming goal) σ) = l.substitute σ := by
  simp only [Literal.substitute, Literal.mk.injEq, true_and]
  refine List.map_congr_left fun t ht => ?_
  cases hg : t.isGround
  · have hmem : t ∈ (goal.flatMap Literal.vars).dedup :=
      List.mem_dedup.mpr (List.mem_flatMap.mpr ⟨l, hl, Literal.mem_vars.mpr ⟨ht, hg⟩⟩)
    rw [IRTerm.substitute_of_not_ground hg, lookup_composeNoExtend, goalIdRenaming,
      lookup_map_self hmem]
    rfl
  · rw [IRTerm.substitute_of_isGround hg, IRTerm.substitute_of_isGround hg]

/-- Projected through the identity renaming, the paths of `flatten_compose` from an
empty root substitution give the answers of the recursion of `solutions`, in order. -/
theorem flattenCompose_answers (goal : List Literal) (t : Tree) :
    (flattenCompose 0 .query [] (goalIdRenaming goal) t).map
        (fun p => goal.map (·.substitute (composeNoExtend (goalIdRenaming goal) p.2))) =
      (solutionsInner t).map fun s => goal.map (·.substitute s) := by
  have hsnd := flattenCompose_snd 0 .query [] (goalIdRenaming goal) t
  simp only [show composeExtend [] = id from funext composeExtend_nil_left, List.map_id] at hsnd
  rw [← hsnd, List.map_map]
  exact List.map_congr_left fun p _ =>
    List.map_congr_left fun l hl => substitute_goalIdRenaming hl p.2

/-! ## The de-duplication -/

section Dedup

variable (goal : List Literal)

/-- The answers `dedup_proofs` keeps: those of its input not yet computed. -/
theorem mem_dedupProofs (ps : List Proof) (computed : List (List Literal)) (a : List Literal) :
    a ∈ (dedupProofs goal ps computed).map (fun p => goal.map (·.substitute p.valuation)) ↔
      a ∈ ps.map (fun p => goal.map (·.substitute p.valuation)) ∧ a ∉ computed := by
  induction ps generalizing computed with
  | nil => simp [dedupProofs]
  | cons p ps ih =>
      unfold dedupProofs
      split
      · rename_i hp
        rw [ih, List.map_cons, List.mem_cons]
        constructor
        · exact fun ⟨ha, hc⟩ => ⟨.inr ha, hc⟩
        · rintro ⟨rfl | ha, hc⟩
          · exact absurd hp hc
          · exact ⟨ha, hc⟩
      · rename_i hp
        simp only [List.map_cons, List.mem_cons, ih, not_or]
        constructor
        · rintro (rfl | ⟨ha, -, hc⟩)
          · exact ⟨.inl rfl, hp⟩
          · exact ⟨.inr ha, hc⟩
        · rintro ⟨rfl | ha, hc⟩
          · exact .inl rfl
          · by_cases he : a = goal.map (·.substitute p.valuation)
            · exact .inl he
            · exact .inr ⟨ha, he, hc⟩

/-- `dedup_proofs` keeps one proof per answer. -/
theorem nodup_dedupProofs (ps : List Proof) (computed : List (List Literal)) :
    ((dedupProofs goal ps computed).map fun p => goal.map (·.substitute p.valuation)).Nodup := by
  induction ps generalizing computed with
  | nil => simp [dedupProofs]
  | cons p ps ih =>
      unfold dedupProofs
      split
      · exact ih computed
      · rw [List.map_cons, List.nodup_cons, mem_dedupProofs]
        exact ⟨fun h => h.2 (List.mem_cons_self _ _), ih _⟩

end Dedup

/-! ## Proofs and solutions -/

/-- `mapM` in `Except` keeps the order of its input. -/
theorem mapM_map_eq {α β γ ε : Type} {f : α → Except ε β} {g : β → γ} {h : α → γ} :
    ∀ {xs : List α} {ys : List β}, xs.mapM f = .ok ys →
      (∀ x ∈ xs, ∀ y, f x = .ok y → g y = h x) → ys.map g = xs.map h
  | [], ys, hm, _ => by cases hm; rfl
  | x :: xs, ys, hm, hfg => by
      rw [List.mapM_cons] at hm
      obtain ⟨y, hy, hm⟩ := bind_eq_ok.mp hm
      obtain ⟨ys', hys', hm⟩ := bind_eq_ok.mp hm
      cases hm
      simp [hfg x (.head _) y hy, mapM_map_eq hys' fun x hx => hfg x (.tail _ hx)]

/-- The root of the proof of a path carries `compose_no_extend` of the path's first
renaming with its unifier. -/
theorem proofForLevel_valuation {path : List PathNode} {mgu : Substitution}
    {rules : List Clause} {fuel level : Nat} {pr : Proof}
    (h : proofForLevel path mgu rules fuel level = .ok pr) :
    ∃ node, path[level]? = some node ∧ pr.valuation = composeNoExtend node.ren mgu := by
  cases fuel with
  | zero => cases h
  | succ fuel =>
      simp only [proofForLevel] at h
      obtain ⟨_, -, h⟩ := bind_eq_ok.mp h
      obtain ⟨node, hnode, h⟩ := bind_eq_ok.mp h
      refine ⟨node, ?_, ?_⟩
      · exact index_eq_ok.mp hnode
      · repeat' (obtain ⟨_, -, h⟩ := bind_eq_ok.mp h)
        cases h; rfl

/-- **Proofs and solutions agree.** For every tree of `sld`, `proofs` returns, the
answers of its proofs are the answers of `solutions`, and no two proofs give the
same answer; and for every tree, the paths of `flatten_compose` read through the
identity renaming give the answers of the recursion of `solutions`. -/
theorem proofs_agree_solutions {rules : List Clause} {goal : List Literal} {maxdepth : Nat}
    {grounded : GroundnessMap} {n : Nat} {t : Tree} {n' : Nat}
    (hsld : sld rules goal maxdepth grounded n = .ok (some t, n')) :
    (∃ ps, proofs t rules goal = .ok ps ∧
      (∀ a, a ∈ ps.map (fun p => goal.map (·.substitute p.valuation)) ↔ a ∈ solutions t) ∧
      (ps.map fun p => goal.map (·.substitute p.valuation)).Nodup) ∧
    ∀ t' : Tree, (flattenCompose 0 .query [] (goalIdRenaming goal) t').map
        (fun p => goal.map (·.substitute (composeNoExtend (goalIdRenaming goal) p.2))) =
      (solutionsInner t').map fun s => goal.map (·.substitute s) := by
  refine ⟨?_, flattenCompose_answers goal⟩
  obtain ⟨prs, hprs⟩ := allProofs_ok hsld
  have hanswers : prs.map (fun p => goal.map (·.substitute p.valuation)) = solutions t := by
    rw [mapM_map_eq hprs fun p hp pr hpr => ?_, flattenCompose_answers, solutions,
      (sld_wf hsld).2.1]
    · exact List.map_congr_left fun s _ => by
        rw [← congrArg (List.map (·.substitute s)) (queryGoal_literal goal), List.map_map]; rfl
    · obtain ⟨rest, hP, -⟩ := sld_path hsld hp
      obtain ⟨node, hnode, hval⟩ := proofForLevel_valuation hpr
      rw [hP, List.getElem?_cons_zero, Option.some.injEq] at hnode
      subst hnode
      rw [hval]
  refine ⟨dedupProofs goal prs [], by simp only [proofs, hprs, ok_bind]; rfl, fun a => ?_,
    nodup_dedupProofs goal prs []⟩
  rw [mem_dedupProofs, hanswers]
  simp

/-- The program `p.` and the query `p`: `proofs` returns, with the answers of
`solutions`, each once. -/
theorem proofs_agree_solutions_fact :
    ∃ t n', sld [⟨⟨none, "p", []⟩, []⟩] [⟨none, "p", []⟩] 1
        (fun s => if s = ⟨"p", 0⟩ then some [] else none) 0 = .ok (some t, n') ∧
      ∃ ps, proofs t [⟨⟨none, "p", []⟩, []⟩] [⟨none, "p", []⟩] = .ok ps ∧
        (∀ a, a ∈ ps.map (fun p => [(⟨none, "p", []⟩ : Literal)].map (·.substitute p.valuation)) ↔
          a ∈ solutions t) ∧
        (ps.map fun p => [(⟨none, "p", []⟩ : Literal)].map (·.substitute p.valuation)).Nodup := by
  obtain ⟨t, n', h⟩ : ∃ t n', sld [⟨⟨none, "p", []⟩, []⟩] [⟨none, "p", []⟩] 1
      (fun s => if s = ⟨"p", 0⟩ then some [] else none) 0 = .ok (some t, n') := ⟨_, _, rfl⟩
  exact ⟨t, n', h, (proofs_agree_solutions h).1⟩

end Modus.Sld
