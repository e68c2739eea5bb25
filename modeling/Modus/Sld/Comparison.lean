import Modus.Sld.Refinement

/-!
# Comparing two runs of `sld`

Two runs of `sld` on one query, with the rules in another order, with another depth
bound or from another counter, rename the rules at different counters: their trees
can hold the same answers only up to the ids of fresh variables. `Modus.Sld.Refinement` relates each
run to `explore`, the search in which a path draws the same ids whatever was
explored before it, and `Modus.Sld.Exploration` compares two searches of `explore`.
This module puts the two together. It needs a query with no renamed variable, as
`main.rs` builds it, and runs that draw at most `2 ^ 32` ids; beyond that the `u32`
counter wraps.

* Reordering the rules changes neither whether `sld` returns, nor how many ids it
  draws, nor whether it builds a tree. The answers of the two trees are the same up
  to renaming fresh ids (`sld_perm`).
* A deeper search that returns keeps every answer of a shallower one, up to renaming
  fresh ids (`sld_depth_mono`).
* The counter `sld` starts from changes neither whether it returns, nor how many ids
  it draws, nor its answers up to renaming fresh ids (`sld_counter_shift`).

Two answers are the same up to renaming fresh ids (`IdVariant`) when both rename the
ids of one substitution, each by a map that identifies no two of them.

## Main results

* `sld_perm` — the order of the rules does not matter.
* `sld_depth_mono` — more depth keeps every answer.
* `sld_counter_shift` — the starting counter does not matter.
-/

namespace Modus.Sld

open Modus.Logic

/-! ## Answers up to the ids of fresh variables -/

/-- Two substitutions that differ only in the ids of fresh variables: both rename the
ids of one substitution, drawn at counters in `[lo, hi)`, each by a map that
identifies no two of them. -/
def IdVariant (σ σ' : Substitution) : Prop :=
  ∃ (τ : Substitution) (lo hi : Nat) (f f' : UInt32 → UInt32), τ.IdsIn lo hi ∧
    IdInjective f lo hi ∧ IdInjective f' lo hi ∧ σ = τ.mapId f ∧ σ' = τ.mapId f'

/-- Two results of `sld` with the same answers up to the ids of fresh variables: no
tree in either, or a tree in both, each of whose answers has a counterpart in the
other. -/
def SameAnswers : Option Tree → Option Tree → Prop
  | none, none => True
  | some t, some t' => (∀ σ ∈ solutionsInner t, ∃ σ' ∈ solutionsInner t', IdVariant σ σ') ∧
      ∀ σ' ∈ solutionsInner t', ∃ σ ∈ solutionsInner t, IdVariant σ σ'
  | _, _ => False

/-- Two answers of `inner` matched to one answer of `explore` differ only in the ids of
fresh variables. -/
theorem Corr.idVariant {f f' : UInt32 → UInt32} {mlo m m' : Nat} {σ σ' τ : Substitution}
    (h : Corr f mlo m σ τ) (h' : Corr f' mlo m' σ' τ) : IdVariant σ σ' := by
  obtain ⟨g, M, -, -, hg, hτ, rfl⟩ := h
  obtain ⟨g', M', -, -, hg', hτ', rfl⟩ := h'
  rcases le_total M M' with hM | hM
  · exact ⟨τ, mlo, M, g, g', hτ, hg, hg'.mono hM, rfl, rfl⟩
  · exact ⟨τ, mlo, M', g, g', hτ', hg.mono hM, hg', rfl, rfl⟩

theorem Matches.eq_none_iff {f : UInt32 → UInt32} {mlo m : Nat} {r : Option Tree}
    {L : List Substitution} (h : Matches f mlo m r L) : r = none ↔ L = [] := by
  cases r with
  | none => exact ⟨fun _ => h, fun _ => rfl⟩
  | some t => exact ⟨nofun, fun hL => absurd hL h.1⟩

/-- Results matched to two searches of `explore` with the same answers have the same
answers up to the ids of fresh variables. -/
theorem Matches.sameAnswers {f f' : UInt32 → UInt32} {mlo m m' : Nat} {r r' : Option Tree}
    {L L' : List Substitution} (h : Matches f mlo m r L) (h' : Matches f' mlo m' r' L')
    (hL : ∀ τ, τ ∈ L ↔ τ ∈ L') : SameAnswers r r' := by
  have hnil : r = none ↔ r' = none := by
    rw [h.eq_none_iff, h'.eq_none_iff, List.eq_nil_iff_forall_not_mem,
      List.eq_nil_iff_forall_not_mem]
    simp only [hL]
  rcases r with _ | t <;> rcases r' with _ | t'
  · trivial
  · exact absurd (hnil.mp rfl) nofun
  · exact absurd (hnil.mpr rfl) nofun
  obtain ⟨-, hF⟩ := h
  obtain ⟨-, hF'⟩ := h'
  refine ⟨fun σ hσ => ?_, fun σ' hσ' => ?_⟩
  · obtain ⟨τ, hτ, hc⟩ := Forall₂_mem_left hF hσ
    obtain ⟨σ', hσ', hc'⟩ := Forall₂_mem_right hF' ((hL τ).mp hτ)
    exact ⟨σ', hσ', hc.idVariant hc'⟩
  · obtain ⟨τ, hτ, hc'⟩ := Forall₂_mem_left hF' hσ'
    obtain ⟨σ, hσ, hc⟩ := Forall₂_mem_right hF ((hL τ).mpr hτ)
    exact ⟨σ, hσ, hc.idVariant hc'⟩

/-! ## A run of `sld` is a search of `explore` -/

section Runs

variable {rules : List Clause} {goal : List Literal} {grounded : GroundnessMap}
  {maxdepth n : Nat}

/-- The root of a run of `sld` from counter `n` and the root of `explore` from counter
`m`, for a query with no renamed variable. -/
theorem Sim.root {m : Nat} (hG : ∀ l ∈ goal, l.IdsIn m m) : Sim id n n m m (queryGoal goal) goal where
  literals := by simp
  idsIn := hG
  maps := fun _ h₁ h₂ => absurd h₂ (by omega)
  inj := fun _ _ h₁ h₂ => absurd h₂ (by omega)
  lo_le := le_rfl
  mlo_le := le_rfl
  draws := by omega

/-- A run of `sld` that returns within `2 ^ 32` draws is a search of `explore` from
the same counter, with as many draws; its tree's answers are those of the search,
renamed. -/
theorem explore_of_sld (hG : ∀ l ∈ goal, l.IdsIn n n) {r : Option Tree} {n' : Nat}
    (h : sld rules goal maxdepth grounded n = .ok (r, n')) (hfit : n' ≤ n + 2 ^ 32) :
    ∃ L, explore rules grounded maxdepth goal n = .ok (L, n' - n) ∧ Matches id n n r L := by
  obtain ⟨L, hL⟩ := explore_of_inner maxdepth 0 id n n _ _ r n' (Sim.root hG) h hfit
  obtain ⟨r₀, h₀, hM⟩ := inner_of_explore maxdepth 0 id n n _ _ L _ (Sim.root hG) hL (by omega)
  have hn := inner_le maxdepth h
  rw [show n + (n' - n) = n' by omega] at h₀
  obtain rfl : r₀ = r := congrArg Prod.fst (Except.ok.inj (h₀.symm.trans h))
  exact ⟨L, hL, hM⟩

/-- A search of `explore` whose draws fit is a run of `sld` from the same counter. -/
theorem sld_of_explore (hG : ∀ l ∈ goal, l.IdsIn n n) {L : List Substitution} {d : Nat}
    (h : explore rules grounded maxdepth goal n = .ok (L, d)) (hfit : d ≤ 2 ^ 32) :
    ∃ r, sld rules goal maxdepth grounded n = .ok (r, n + d) ∧ Matches id n n r L :=
  inner_of_explore maxdepth 0 id n n _ _ L d (Sim.root hG) h (by omega)

/-- **The order of the rules does not matter.** For a query with no renamed variable,
if `sld` returns within `2 ^ 32` draws, it returns on any permutation of the rules
with as many draws, builds a tree exactly when it did, and the answers of the two
trees are the same up to renaming fresh ids. -/
theorem sld_perm {rules' : List Clause} (hperm : rules.Perm rules')
    (hG : ∀ l ∈ goal, l.IdsIn n n) {r : Option Tree} {n' : Nat}
    (h : sld rules goal maxdepth grounded n = .ok (r, n')) (hfit : n' ≤ n + 2 ^ 32) :
    ∃ r', sld rules' goal maxdepth grounded n = .ok (r', n') ∧ SameAnswers r r' := by
  obtain ⟨L, hL, hM⟩ := explore_of_sld hG h hfit
  have hs : SameOutcome (explore rules grounded maxdepth goal n)
      (explore rules' grounded maxdepth goal n) := explore_perm hperm maxdepth goal n
  rw [hL] at hs
  obtain ⟨⟨L', d⟩, hL', rfl, hmem⟩ := SameOutcome.of_ok hs
  obtain ⟨r', h', hM'⟩ := sld_of_explore hG hL' (by omega)
  have hn := inner_le maxdepth h
  rw [show n + (n' - n) = n' by omega] at h'
  exact ⟨r', h', hM.sameAnswers hM' hmem⟩

/-- The program `q(X) :- p(X). q(Z) :- s(Z). p("a"). s("b").` and the query `q(Y)`,
with the two rules for `q` in either order: each run draws two ids, and the answers
agree up to renaming fresh ids. -/
theorem sld_perm_two_rules :
    let qp : Clause := ⟨⟨none, "q", [.userVariable "X"]⟩, [⟨none, "p", [.userVariable "X"]⟩]⟩
    let qs : Clause := ⟨⟨none, "q", [.userVariable "Z"]⟩, [⟨none, "s", [.userVariable "Z"]⟩]⟩
    let facts : List Clause := [⟨⟨none, "p", [.constant "a"]⟩, []⟩, ⟨⟨none, "s", [.constant "b"]⟩, []⟩]
    let grounded : GroundnessMap := fun s =>
      if s = ⟨"p", 1⟩ ∨ s = ⟨"q", 1⟩ ∨ s = ⟨"s", 1⟩ then some [true] else none
    ∃ r, sld (qp :: qs :: facts) [⟨none, "q", [.userVariable "Y"]⟩] 3 grounded 0 = .ok (r, 2) ∧
      ∃ r', sld (qs :: qp :: facts) [⟨none, "q", [.userVariable "Y"]⟩] 3 grounded 0 = .ok (r', 2) ∧
        SameAnswers r r' := by
  intro qp qs facts grounded
  obtain ⟨r, h⟩ : ∃ r, sld (qp :: qs :: facts) [⟨none, "q", [.userVariable "Y"]⟩] 3 grounded 0 =
      .ok (r, 2) := ⟨_, by rfl⟩
  exact ⟨r, h, sld_perm (List.Perm.swap _ _ _) (by simp [Literal.IdsIn, IRTerm.IdsIn]) h
    (by decide)⟩

/-- **More depth keeps every answer.** For a query with no renamed variable, if `sld`
builds a tree at one depth and returns at a greater depth, both within `2 ^ 32`
draws, then it builds a tree at the greater depth too, and every answer of the first
tree has a counterpart in the second, up to renaming fresh ids. -/
theorem sld_depth_mono {maxdepth' : Nat} (hD : maxdepth ≤ maxdepth')
    (hG : ∀ l ∈ goal, l.IdsIn n n) {t : Tree} {n₁ : Nat}
    (h : sld rules goal maxdepth grounded n = .ok (some t, n₁)) (hfit : n₁ ≤ n + 2 ^ 32)
    {r' : Option Tree} {n₂ : Nat} (h' : sld rules goal maxdepth' grounded n = .ok (r', n₂))
    (hfit' : n₂ ≤ n + 2 ^ 32) :
    ∃ t', r' = some t' ∧ ∀ σ ∈ solutionsInner t, ∃ σ' ∈ solutionsInner t', IdVariant σ σ' := by
  obtain ⟨L, hL, hne, hF⟩ := explore_of_sld hG h hfit
  obtain ⟨L', hL', hM'⟩ := explore_of_sld hG h' hfit'
  have hsub : ∀ τ ∈ L, τ ∈ L' := explore_mono hD goal n _ _ hL hL'
  cases r' with
  | none =>
      obtain ⟨τ, hτ⟩ := List.exists_mem_of_ne_nil L hne
      exact absurd (hsub τ hτ) (by rw [show L' = [] from hM']; exact List.not_mem_nil τ)
  | some t' =>
      refine ⟨t', rfl, fun σ hσ => ?_⟩
      obtain ⟨τ, hτ, hc⟩ := Forall₂_mem_left hF hσ
      obtain ⟨σ', hσ', hc'⟩ := Forall₂_mem_right hM'.2 (hsub τ hτ)
      exact ⟨σ', hσ', hc.idVariant hc'⟩

/-- The program `reach(X, Y) :- arc(X, Y). reach(X, Y) :- arc(X, Z), reach(Z, Y).
arc("a", "b"). arc("b", "c").` and the query `reach("a", W)`: at depth `2` the run
finds `W = "b"`, at depth `4` also `W = "c"`, and the first answer is kept. -/
theorem sld_depth_mono_reach :
    let rules : List Clause :=
      [⟨⟨none, "reach", [.userVariable "X", .userVariable "Y"]⟩,
          [⟨none, "arc", [.userVariable "X", .userVariable "Y"]⟩]⟩,
        ⟨⟨none, "reach", [.userVariable "X", .userVariable "Y"]⟩,
          [⟨none, "arc", [.userVariable "X", .userVariable "Z"]⟩,
            ⟨none, "reach", [.userVariable "Z", .userVariable "Y"]⟩]⟩,
        ⟨⟨none, "arc", [.constant "a", .constant "b"]⟩, []⟩,
        ⟨⟨none, "arc", [.constant "b", .constant "c"]⟩, []⟩]
    let query : List Literal := [⟨none, "reach", [.constant "a", .userVariable "W"]⟩]
    let grounded : GroundnessMap := fun s =>
      if s = ⟨"reach", 2⟩ ∨ s = ⟨"arc", 2⟩ then some [true, true] else none
    ∃ t, sld rules query 2 grounded 0 = .ok (some t, 5) ∧
      ∃ r', sld rules query 4 grounded 0 = .ok (r', 10) ∧
        ∃ t', r' = some t' ∧ ∀ σ ∈ solutionsInner t, ∃ σ' ∈ solutionsInner t', IdVariant σ σ' := by
  intro rules query grounded
  obtain ⟨t, h⟩ : ∃ t, sld rules query 2 grounded 0 = .ok (some t, 5) := ⟨_, by rfl⟩
  obtain ⟨r', h'⟩ : ∃ r', sld rules query 4 grounded 0 = .ok (r', 10) := ⟨_, by rfl⟩
  exact ⟨t, h, r', h', sld_depth_mono (by decide) (by simp [query, Literal.IdsIn, IRTerm.IdsIn]) h
    (by decide) h' (by decide)⟩

/-- **The starting counter does not matter.** For a query with no renamed variable, if
`sld` returns from counter `n` within `2 ^ 32` draws, it returns from any counter `m`,
drawing as many ids, builds a tree exactly when it did, and the answers of the two
trees are the same up to renaming fresh ids. The counter may wrap past `u32::MAX` in
the second run. -/
theorem sld_counter_shift {m : Nat} (hG : ∀ l ∈ goal, l.IdsIn m m) {r : Option Tree} {n' : Nat}
    (h : sld rules goal maxdepth grounded n = .ok (r, n')) (hfit : n' ≤ n + 2 ^ 32) :
    ∃ r', sld rules goal maxdepth grounded m = .ok (r', m + (n' - n)) ∧ SameAnswers r r' := by
  obtain ⟨L, hL⟩ := explore_of_inner maxdepth 0 id n m _ _ r n' (Sim.root hG) h hfit
  obtain ⟨r₀, h₀, hM⟩ := inner_of_explore maxdepth 0 id n m _ _ L _ (Sim.root hG) hL (by omega)
  obtain ⟨r', h', hM'⟩ := inner_of_explore maxdepth 0 id m m _ _ L _ (Sim.root hG) hL (by omega)
  have hn := inner_le maxdepth h
  rw [show n + (n' - n) = n' by omega] at h₀
  obtain rfl : r₀ = r := congrArg Prod.fst (Except.ok.inj (h₀.symm.trans h))
  exact ⟨r', h', hM.sameAnswers hM' fun _ => Iff.rfl⟩

/-- The reach program of `sld_depth_mono_reach` from counter `0` and from
`u32::MAX`, where the second run's counter wraps. -/
theorem sld_counter_shift_reach :
    let rules : List Clause :=
      [⟨⟨none, "reach", [.userVariable "X", .userVariable "Y"]⟩,
          [⟨none, "arc", [.userVariable "X", .userVariable "Y"]⟩]⟩,
        ⟨⟨none, "reach", [.userVariable "X", .userVariable "Y"]⟩,
          [⟨none, "arc", [.userVariable "X", .userVariable "Z"]⟩,
            ⟨none, "reach", [.userVariable "Z", .userVariable "Y"]⟩]⟩,
        ⟨⟨none, "arc", [.constant "a", .constant "b"]⟩, []⟩,
        ⟨⟨none, "arc", [.constant "b", .constant "c"]⟩, []⟩]
    let query : List Literal := [⟨none, "reach", [.constant "a", .userVariable "W"]⟩]
    let grounded : GroundnessMap := fun s =>
      if s = ⟨"reach", 2⟩ ∨ s = ⟨"arc", 2⟩ then some [true, true] else none
    ∃ r, sld rules query 2 grounded 0 = .ok (r, 5) ∧
      ∃ r', sld rules query 2 grounded 4294967295 = .ok (r', 4294967295 + (5 - 0)) ∧
        SameAnswers r r' := by
  intro rules query grounded
  obtain ⟨r, h⟩ : ∃ r, sld rules query 2 grounded 0 = .ok (r, 5) := ⟨_, by rfl⟩
  exact ⟨r, h, sld_counter_shift (by simp [query, Literal.IdsIn, IRTerm.IdsIn]) h (by decide)⟩

end Runs

end Modus.Sld
