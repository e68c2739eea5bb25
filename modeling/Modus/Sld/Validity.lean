import Modus.Sld.Freshness

/-!
# The proofs of `proofs` are derivations

`proofs` turns each root-to-leaf path of the tree of `sld` into a proof tree: the
node for step `k` applies the clause of that step, with valuation
`compose_no_extend` of the step's renaming with the path's final unifier, and its
children are the proofs for the later steps that selected the literals step `k`
introduced, in body-index order. Such a tree is a derivation (`Proves`) when each
node's clause, under its valuation, concludes the literal its parent asks of it.

That holds when the renaming of each step is fresh for the unifiers before it: the
literal a step selects is then its origin under the introducing step's valuation
(`RunPath.literal_target`), and the step's own head under its valuation is, after
the unifiers of the rest of the path, the selected literal. Freshness needs the
query to have no renamed variables, whose ids could collide with those a renaming
draws, and the run to draw at most `2 ^ 32` ids, after which `fetch_add` wraps.
As for soundness, `run` and `from` must occur with one argument: `Run::apply`
returns a literal with more arguments unchanged, and a later step may bind them.

## Main results

* `RunPath.proves_selected` — the proof for each step derives the literal it selected.
* `proofs_valid` — every proof `proofs` returns is a derivation of the query.
* `proofs_valuation_collision` — a query with a renamed variable breaks validity.
-/

namespace Modus.Sld

open Modus.Logic Modus.Builtin

/-! ## Derivations -/

/-- Step `k'` of the path resolved body literal `i` of the clause step `k` applied:
the literal it selected from the goal of the step before was introduced at step `k`
with body index `i`. These are the pairs `proof_for_level` collects in
`sublevels_map`. -/
def Resolves (path : List PathNode) (k i k' : Nat) : Prop :=
  ∃ (j : Nat) (prev nd : PathNode) (l : LiteralWithHistory), k' = j + 1 ∧ path[j]? = some prev ∧
    path[j + 1]? = some nd ∧ prev.resolvent[nd.selected]? = some l ∧ l.introduction = k ∧
    l.origin.bodyIndex = i

/-- The proof `p` is the proof for step `k` of a path with final unifier `σ`, and
derives `L`. It carries the clause step `k` applied and the step's valuation,
`compose_no_extend` of its renaming with `σ`. For rule `rid`, the rule's head
under the valuation is `L`, position aside, and there is one child per body
literal: child `i` is the proof for the step `sublevels[i]`, which resolved body
literal `i`, and derives that literal under the valuation. For a builtin fact `h`,
`h` is `L`, position aside, and there are no children. -/
inductive Proves (rules : List Clause) (path : List PathNode) (σ : Substitution) :
    Nat → Proof → Literal → Prop
  | rule {k rid : Nat} {node : PathNode} {c : Clause} {val : Substitution} {sublevels : List Nat}
      {children : List Proof} {L : Literal}
      (hnode : path[k]? = some node) (happ : node.applied = .rule rid)
      (hval : val = composeNoExtend node.ren σ) (hc : rules[rid]? = some c)
      (hhead : (c.head.substitute val).eqIgnoringPosition L)
      (hlen : children.length = c.body.length) (hsub : sublevels.length = children.length)
      (hresolves : ∀ (i k' : Nat), sublevels[i]? = some k' → Resolves path k i k')
      (hchildren : ∀ (i k' : Nat) (p : Proof) (b : Literal), sublevels[i]? = some k' →
        children[i]? = some p → c.body[i]? = some b → Proves rules path σ k' p (b.substitute val)) :
      Proves rules path σ k (.mk (.rule rid) val children) L
  | builtin {k : Nat} {node : PathNode} {h : Literal} {val : Substitution} {L : Literal}
      (hnode : path[k]? = some node) (happ : node.applied = .builtin h)
      (hval : val = composeNoExtend node.ren σ) (hh : h.eqIgnoringPosition L) :
      Proves rules path σ k (.mk (.builtin h) val []) L

/-- The proof `p` derives the query along a path with final unifier `σ`: it is the
proof for the path's first step, which applied the query, with that step's
valuation; and it has one child per query literal, child `i` the proof for the step
that resolved query literal `i`, deriving that literal under the root's valuation. -/
def ProvesGoal (rules : List Clause) (goal : List Literal) (path : List PathNode)
    (σ : Substitution) : Proof → Prop
  | .mk cid val children => cid = .query ∧
      (∃ root, path[0]? = some root ∧ val = composeNoExtend root.ren σ) ∧
      children.length = goal.length ∧
      ∀ (i : Nat) (p : Proof) (l : Literal), children[i]? = some p → goal[i]? = some l →
        ∃ k, Resolves path 0 i k ∧ Proves rules path σ k p (l.substitute val)

/-! ## What `proof_for_level` finds -/

/-- A selection of a path: step `level + j + 1` selected, from the goal of node
`j`, a literal with the recorded history. -/
theorem mem_selections {level : Nat} {path : List PathNode} {x : (Nat × Nat) × Nat}
    (hx : x ∈ selections level path) :
    ∃ (j : Nat) (prev node : PathNode) (l : LiteralWithHistory), x.2 = level + j + 1 ∧
      path[j]? = some prev ∧ path[j + 1]? = some node ∧
      prev.resolvent[node.selected]? = some l ∧ x.1 = (l.introduction, l.origin.bodyIndex) := by
  induction level, path using selections.induct with
  | case1 level node next rest lit hlit ih =>
      simp only [selections, hlit, List.mem_cons] at hx
      rcases hx with rfl | hx
      · exact ⟨0, node, next, lit, rfl, List.getElem?_cons_zero, by simp, hlit, rfl⟩
      · obtain ⟨j, prev, nd, l, h2, hprev, hnd, hl, h1⟩ := ih hx
        exact ⟨j + 1, prev, nd, l, by omega, by simpa using hprev, by simpa using hnd, hl, h1⟩
  | case2 level node next rest hlit ih =>
      simp only [selections, hlit] at hx
      obtain ⟨j, prev, nd, l, h2, hprev, hnd, hl, h1⟩ := ih hx
      exact ⟨j + 1, prev, nd, l, by omega, by simpa using hprev, by simpa using hnd, hl, h1⟩
  | case3 path level hpath =>
      match path, hpath with
      | [], _ => simp [selections] at hx
      | [_], _ => simp [selections] at hx
      | _ :: _ :: _, hpath => exact (hpath _ _ _ rfl).elim

theorem Forall₂_getElem? {α β : Type} {R : α → β → Prop} {xs : List α} {ys : List β}
    (h : List.Forall₂ R xs ys) {i : Nat} {y : β} (hy : ys[i]? = some y) :
    ∃ x, xs[i]? = some x ∧ R x y := by
  induction h generalizing i with
  | nil => simp at hy
  | @cons x y' xs ys hxy _ ih =>
      cases i with
      | zero =>
          simp only [List.getElem?_cons_zero, Option.some.injEq] at hy
          subst hy
          exact ⟨x, List.getElem?_cons_zero, hxy⟩
      | succ i => simpa using ih (by simpa using hy)

theorem getUnwrap_mem {m : List (Nat × Nat)} {i y : Nat} (h : getUnwrap m i = .ok y) : (i, y) ∈ m := by
  unfold getUnwrap at h
  split at h
  · rename_i l hl
    cases h
    obtain ⟨x, hx, rfl⟩ := Option.map_eq_some'.mp hl
    have hi : x.1 = i := by simpa using List.find?_some hx
    exact hi ▸ List.mem_of_find?_eq_some hx
  · cases h

section Reconstruction

variable {rules : List Clause} {goal : List Literal} {maxdepth : Nat} {grounded : GroundnessMap}
  {n : Nat} {t : Tree} {n' : Nat} {p : Path}

/-- **The children `proof_for_level` finds** for step `k` of a path of the tree of
`sld`: one per literal step `k` introduced, child `i` the proof for the step
`sublevels[i]`, which resolved the literal with body index `i`. -/
theorem proofForLevel_children (hsld : sld rules goal maxdepth grounded n = .ok (some t, n'))
    (hp : p ∈ flattenCompose 0 .query [] (goalIdRenaming goal) t) {fuel k : Nat} {pr : Proof}
    (h : proofForLevel p.1 p.2 rules (fuel + 1) k = .ok pr) :
    ∃ (node : PathNode) (sublevels : List Nat) (children : List Proof), p.1[k]? = some node ∧
      pr = .mk node.applied (composeNoExtend node.ren p.2) children ∧
      children.length = introducedCount rules goal.length node.applied ∧
      sublevels.length = children.length ∧
      (∀ (i k' : Nat), sublevels[i]? = some k' → Resolves p.1 k i k') ∧
      ∀ (i k' : Nat) (ch : Proof), sublevels[i]? = some k' → children[i]? = some ch →
        proofForLevel p.1 p.2 rules fuel k' = .ok ch := by
  obtain ⟨xs, node, ys, children, hxs, hnode, hys, hch, rfl⟩ := proofForLevel_eq_ok h
  obtain ⟨xs', hxs', hperm, -⟩ := (sld_path_reconstructible hsld hp).sublevels k node hnode
  obtain rfl : xs' = xs := by rw [hxs] at hxs'; cases hxs'; rfl
  have hys₂ := mapM_forall₂ hys
  have hch₂ := mapM_forall₂ hch
  refine ⟨node, ys, children, hnode, rfl, ?_, hch₂.length_eq, fun i k' hi => ?_,
    fun i k' ch hi hc => ?_⟩
  · rw [← hch₂.length_eq, ← hys₂.length_eq, List.length_range]
    simpa using hperm.length_eq
  · obtain ⟨i', hi', hget⟩ := Forall₂_getElem? hys₂ hi
    obtain rfl : i' = i := (List.getElem?_eq_some_iff.mp hi').2 ▸ List.getElem_range _ _
    obtain ⟨rest, hP, hchain⟩ := sld_path hsld hp
    have hmem := getUnwrap_mem hget
    rw [hP] at hxs hnode hchain
    rw [chain_sublevels hchain rfl rfl hnode] at hxs
    cases hxs
    obtain ⟨x, hx, hxe⟩ := List.mem_map.mp hmem
    obtain ⟨hx, hxk⟩ := List.mem_filter.mp hx
    obtain ⟨j, prev, nd, l, h2, hprev, hnd, hl, h1⟩ := mem_selections hx
    simp only [h1, h2, Prod.mk.injEq, decide_eq_true_eq, Nat.zero_add] at hxe hxk
    obtain ⟨rfl, rfl⟩ := hxe
    exact ⟨j, prev, nd, l, rfl, hP ▸ hprev, hP ▸ hnd, hl, hxk, rfl⟩
  · obtain ⟨y, hy, hpr⟩ := Forall₂_getElem? hch₂ hc
    rw [hi] at hy; cases hy
    exact hpr

end Reconstruction

/-- A builtin edge from a literal with its builtin arity fabricates the selected
literal under the edge's unifier, position aside, and that literal is ground. -/
theorem Edge.builtin_head {rules : List Clause} {lit head : Literal} {mgu ren : Substitution}
    {clause : Clause} (h : Edge rules lit (.builtin head) mgu ren clause) (harity : BuiltinArity lit) :
    head.eqIgnoringPosition (lit.substitute mgu) ∧ ∀ t ∈ (lit.substitute mgu).args, t.isGround = true := by
  cases h with
  | @builtin p _ _ hsel hres =>
      cases happ : p.apply lit with
      | error e => simp [BuiltinPredicate.resolvent, happ, Except.map] at hres
      | ok head? =>
          simp only [BuiltinPredicate.resolvent, happ, Except.map, Except.ok.injEq,
            Option.bind_eq_some, Option.map_eq_some'] at hres
          obtain ⟨head, rfl, mgu, hu, hpair⟩ := hres
          cases hpair
          have hsound := Literal.unify_sound hu
          rcases BuiltinPredicate.apply_eq_ok_some happ with ⟨-, a, b, rfl⟩ | ⟨hp, rfl, c, ts, hargs⟩
          · rw [Literal.substitute_of_ground (stringConcatResult_isGround a b _)] at hsound
            exact ⟨hsound, hsound.2 ▸ stringConcatResult_isGround a b _⟩
          · have hname := BuiltinPredicate.name_eq_of_select (selectBuiltin_select (congrArg Prod.snd hsel))
            have hone : ts = [] := by
              have := harity (by rcases hp with rfl | rfl <;> simp_all [BuiltinPredicate.name])
              simpa [hargs] using this
            have hground : ∀ t ∈ head.args, t.isGround = true := by simp [hargs, hone]
            rw [Literal.substitute_of_ground hground]
            exact ⟨⟨rfl, rfl⟩, hground⟩

/-- The de-duplication keeps only proofs of its input. -/
theorem mem_of_mem_dedupProofs {goal : List Literal} {ps : List Proof}
    {computed : List (List Literal)} {pr : Proof} (h : pr ∈ dedupProofs goal ps computed) :
    pr ∈ ps := by
  induction ps generalizing computed with
  | nil => cases h
  | cons q ps ih =>
      unfold dedupProofs at h
      split at h
      · exact List.mem_cons_of_mem _ (ih h)
      · rcases List.mem_cons.mp h with rfl | h
        · exact List.mem_cons_self _ _
        · exact List.mem_cons_of_mem _ (ih h)

section Derivation

variable {rules : List Clause} {goal : List Literal} {maxdepth : Nat} {grounded : GroundnessMap}
  {n : Nat} {t : Tree} {n' : Nat} {p : Path} {mgus : List Substitution} {cs : List Nat}

/-- **The proof for each step derives the literal it selected**, under the
unifiers from that step on. A rule step's head, under its valuation, is that
literal: the valuation is the renaming followed by the path's unifier, which on the
renamed head acts as the unifiers from the step on (the renaming is fresh), and the
step's own unifier equates the renamed head with the literal. -/
theorem RunPath.proves_selected (hP : RunPath rules goal n p.1 p.2 mgus cs)
    (hsld : sld rules goal maxdepth grounded n = .ok (some t, n'))
    (hp : p ∈ flattenCompose 0 .query [] (goalIdRenaming goal) t)
    (hG : ∀ l ∈ goal, ∀ s ∈ l.args, s.IdsIn n n) (hGa : ∀ l ∈ goal, BuiltinArity l)
    (hR : ∀ c ∈ rules, ∀ b ∈ c.body, BuiltinArity b) (fuel : Nat) :
    ∀ (j : Nat) (prev nd : PathNode) (l : LiteralWithHistory) (ch : Proof),
      p.1[j]? = some prev → p.1[j + 1]? = some nd → prev.resolvent[nd.selected]? = some l →
      proofForLevel p.1 p.2 rules fuel (j + 1) = .ok ch →
      Proves rules p.1 p.2 (j + 1) ch (l.literal.substitute (composeFrom mgus (j + 1))) := by
  induction fuel with
  | zero => intro j prev nd l ch _ _ _ h; cases h
  | succ fuel ih =>
      intro j prev nd l ch hprev hnd hl h
      obtain ⟨node, sublevels, children, hnode, rfl, hlen, hsub, hres, hchildren⟩ :=
        proofForLevel_children hsld hp h
      rw [hnd] at hnode; cases hnode
      have hj : j + 1 < p.1.length := (List.getElem?_eq_some_iff.mp hnd).1
      obtain ⟨-, a, -, -, ha, -⟩ := hP.at (Nat.lt_of_succ_lt hj)
      obtain ⟨-, b, m, -, hb, hm⟩ := hP.at hj
      obtain ⟨l', clause, hl', hedge, -⟩ := hP.edge j prev nd m hprev hnd hm
      rw [hl] at hl'; cases hl'
      have hwin := (hP.draws.step j a b nd ha hb hnd).2
      have hL : l.literal.substitute (composeFrom mgus (j + 1)) =
          (l.literal.substitute m).substitute (composeFrom mgus (j + 1 + 1)) := by
        rw [composeFrom_of_getElem? hm, Literal.substitute_composeExtend]
      rw [hL]
      generalize hcid : nd.applied = cid at hedge hlen
      generalize hren : nd.ren = ren at hedge hwin
      cases hedge with
      | @builtin q head _ hsel hres =>
          obtain ⟨hh, hground⟩ := Edge.builtin_head (.builtin hsel hres : Edge rules l.literal _ m [] _)
            (hP.goal_arity hGa hR j prev hprev l (List.mem_iff_getElem?.mpr ⟨_, hl⟩))
          obtain rfl : children = [] := List.eq_nil_of_length_eq_zero (by simpa [introducedCount] using hlen)
          rw [Literal.substitute_of_ground hground]
          exact .builtin hnd hcid (by rw [hren]) hh
      | @rule rid c a' _ hrid hu =>
          refine .rule hnd hcid (by rw [hren]) hrid ?_
            (by simpa [introducedCount, bodyCount, hrid] using hlen) hsub hres
            fun i k' ch' b' hk' hch' hb' => ?_
          · -- the head: renamed apart, then the step's unifier
            have hapart : (c.head.substitute (c.renameWithSub a').1.2).substitute (composeFrom mgus 0) =
                (c.head.substitute (c.renameWithSub a').1.2).substitute (composeFrom mgus (j + 1)) :=
              Literal.substitute_congr fun s hs => hP.renamed_apart hG ha hb
                (by
                  rcases Clause.renameWithSub_terms (.inl rfl) s hs with hg | ⟨kv, hkv, rfl⟩
                  · exact .inl hg
                  · exact hwin kv hkv) 0 (Nat.zero_le _)
            rw [Clause.substitute_composeNoExtend_renaming (.inl rfl), hP.literal_unifier, hapart,
              composeFrom_of_getElem? hm, Literal.substitute_composeExtend]
            have hsound := Literal.unify_sound hu
            rw [Clause.renameWithSub_fst, Clause.substitute_head] at hsound
            exact hsound.substitute _
          · -- the children: each derives its origin under this step's valuation
            obtain ⟨j', prev', nd', l'', rfl, hprev', hnd', hl'', hintro, hidx⟩ := hres i k' hk'
            have hproves := ih j' prev' nd' l'' ch' hprev' hnd' hl'' (hchildren i _ ch' hk' hch')
            obtain ⟨b₀, nd₀, hb₀, hnd₀, happ, heq⟩ :=
              hP.literal_target hG j' prev' hprev' l'' (List.mem_iff_getElem?.mpr ⟨_, hl''⟩)
            rw [hintro, hnd] at hnd₀; cases hnd₀
            have horigin : l''.origin = ⟨.rule rid, i⟩ := by
              rw [show l''.origin = ⟨l''.origin.clause, l''.origin.bodyIndex⟩ from rfl, ← happ, hcid,
                hidx]
            rw [horigin] at hb₀
            simp only [originLiteral, hrid, Option.some_bind, hb', Option.some.injEq] at hb₀
            subst hb₀
            rwa [heq, hren] at hproves

/-- **The proof of a path derives the query**: its root applies the query with the
valuation of the path's first step, and its child for query literal `i` derives
that literal under the valuation. -/
theorem RunPath.provesGoal (hP : RunPath rules goal n p.1 p.2 mgus cs)
    (hsld : sld rules goal maxdepth grounded n = .ok (some t, n'))
    (hp : p ∈ flattenCompose 0 .query [] (goalIdRenaming goal) t)
    (hG : ∀ l ∈ goal, ∀ s ∈ l.args, s.IdsIn n n) (hGa : ∀ l ∈ goal, BuiltinArity l)
    (hR : ∀ c ∈ rules, ∀ b ∈ c.body, BuiltinArity b) {fuel : Nat} {pr : Proof}
    (h : proofForLevel p.1 p.2 rules (fuel + 1) 0 = .ok pr) : ProvesGoal rules goal p.1 p.2 pr := by
  obtain ⟨node, sublevels, children, hnode, rfl, hlen, hsub, hres, hchildren⟩ :=
    proofForLevel_children hsld hp h
  rw [hP.root] at hnode; cases hnode
  refine ⟨rfl, ⟨_, hP.root, rfl⟩, by simpa [introducedCount] using hlen, fun i ch l hch hl => ?_⟩
  -- the step that resolved query literal `i`
  have hk := List.getElem?_eq_getElem (by rw [hsub]; exact (List.getElem?_eq_some_iff.mp hch).1)
  obtain ⟨j, prev, nd, l', hj, hprev, hnd, hl', hintro, hidx⟩ := hres i _ hk
  rw [hj] at hk
  have hproves := hP.proves_selected hsld hp hG hGa hR fuel j prev nd l' ch hprev hnd hl'
    (hchildren i _ ch hk hch)
  obtain ⟨b, nd₀, hb, hnd₀, happ, heq⟩ :=
    hP.literal_target hG j prev hprev l' (List.mem_iff_getElem?.mpr ⟨_, hl'⟩)
  rw [hintro, hP.root] at hnd₀; cases hnd₀
  have horigin : l'.origin = ⟨.query, i⟩ := by
    rw [show l'.origin = ⟨l'.origin.clause, l'.origin.bodyIndex⟩ from rfl, ← happ, hidx]
  rw [horigin] at hb
  simp only [originLiteral, hl, Option.some.injEq] at hb
  subst hb
  exact ⟨j + 1, hres i _ hk, by rwa [heq] at hproves⟩

end Derivation

/-! ## The proofs of `sld`'s trees -/

/-- **The proofs are derivations.** When the query has no renamed variables, the
run draws at most `2 ^ 32` ids, and `run` and `from` occur with one argument, every
proof `proofs` returns for a tree of `sld` derives the query along a path of the
tree. Each node is the proof for one step of the path, the root for the first: it
applies the step's clause with the step's valuation, `compose_no_extend` of the
step's renaming and the path's unifier. The root has one child per query literal;
a node applying rule `rid` (builtin fact `h`) has the rule's head (`h`) equal,
position aside, to the literal it derives, and one child per body literal (none).
Child `i` is the proof for the step that resolved the literal with body index `i`. -/
theorem proofs_valid {rules : List Clause} {goal : List Literal} {maxdepth : Nat}
    {grounded : GroundnessMap} {n : Nat} {t : Tree} {n' : Nat}
    (hsld : sld rules goal maxdepth grounded n = .ok (some t, n'))
    (hFresh : ∀ l ∈ goal, ∀ s ∈ l.args, ∀ i v, s ≠ .renamedVariable i v)
    (hDraws : n' ≤ n + 2 ^ 32) (hG : ∀ l ∈ goal, BuiltinArity l)
    (hR : ∀ c ∈ rules, ∀ b ∈ c.body, BuiltinArity b) :
    ∃ ps, proofs t rules goal = .ok ps ∧ ∀ pr ∈ ps,
      ∃ p ∈ flattenCompose 0 .query [] (goalIdRenaming goal) t, ProvesGoal rules goal p.1 p.2 pr := by
  have hIds : ∀ l ∈ goal, ∀ s ∈ l.args, s.IdsIn n n := fun l hl s hs i v hsv =>
    absurd hsv (hFresh l hl s hs i v)
  obtain ⟨prs, hprs⟩ := allProofs_ok hsld
  refine ⟨dedupProofs goal prs [], by simp only [proofs, hprs, ok_bind]; rfl, fun pr hpr => ?_⟩
  obtain ⟨p, hp, hpr'⟩ := Forall₂_mem_right (mapM_forall₂ hprs) (mem_of_mem_dedupProofs hpr)
  obtain ⟨mgus, cs, hP⟩ := sld_runPath hsld hDraws hp
  exact ⟨p, hp, hP.provesGoal hsld hp hIds hG hR hpr'⟩

/-- The program `q(X) :- p(X). p("a").` and the query `q(Y)`: the run draws one id,
and every proof `proofs` returns derives the query. -/
theorem proofs_valid_chain :
    ∃ t, sld [⟨⟨none, "q", [.userVariable "X"]⟩, [⟨none, "p", [.userVariable "X"]⟩]⟩,
        ⟨⟨none, "p", [.constant "a"]⟩, []⟩] [⟨none, "q", [.userVariable "Y"]⟩] 3
        (fun s => if s = ⟨"p", 1⟩ ∨ s = ⟨"q", 1⟩ then some [true] else none) 0 = .ok (some t, 1) ∧
      ∃ ps, proofs t [⟨⟨none, "q", [.userVariable "X"]⟩, [⟨none, "p", [.userVariable "X"]⟩]⟩,
          ⟨⟨none, "p", [.constant "a"]⟩, []⟩] [⟨none, "q", [.userVariable "Y"]⟩] = .ok ps ∧
        ∀ pr ∈ ps, ∃ p ∈ flattenCompose 0 .query [] (goalIdRenaming [⟨none, "q", [.userVariable "Y"]⟩]) t,
          ProvesGoal [⟨⟨none, "q", [.userVariable "X"]⟩, [⟨none, "p", [.userVariable "X"]⟩]⟩,
            ⟨⟨none, "p", [.constant "a"]⟩, []⟩] [⟨none, "q", [.userVariable "Y"]⟩] p.1 p.2 pr := by
  obtain ⟨t, h⟩ : ∃ t, sld [⟨⟨none, "q", [.userVariable "X"]⟩, [⟨none, "p", [.userVariable "X"]⟩]⟩,
      ⟨⟨none, "p", [.constant "a"]⟩, []⟩] [⟨none, "q", [.userVariable "Y"]⟩] 3
      (fun s => if s = ⟨"p", 1⟩ ∨ s = ⟨"q", 1⟩ then some [true] else none) 0 = .ok (some t, 1) :=
    ⟨_, rfl⟩
  exact ⟨t, h, proofs_valid h (by simp) (by decide) (by simp [BuiltinArity])
    (by simp [BuiltinArity])⟩

/-- A query literal carrying a renamed variable whose id the counter hands out
again. The program is `p("a"). q(Y).` and the query `p(Y₀), q(Z)`, where `Y₀` is
`Y` renamed with id `0`. Renaming `q(Y)` at counter `0` makes the same `Y₀`, the
path's unifier binds it to `"a"`, and the proof for `q` gets the valuation
`Y ↦ "a"`: its head `q("a")` is not the query literal `q(Z)` it must derive. -/
theorem proofs_valuation_collision :
    let pr : Proof := .mk .query [(.renamedVariable 0 (.userVariable "Y"), .constant "a"),
      (.userVariable "Z", .userVariable "Z")]
      [.mk (.rule 0) [] [], .mk (.rule 1) [(.userVariable "Y", .constant "a")] []]
    ∃ t, sld [⟨⟨none, "p", [.constant "a"]⟩, []⟩, ⟨⟨none, "q", [.userVariable "Y"]⟩, []⟩]
        [⟨none, "p", [.renamedVariable 0 (.userVariable "Y")]⟩, ⟨none, "q", [.userVariable "Z"]⟩] 2
        (fun s => if s = ⟨"p", 1⟩ ∨ s = ⟨"q", 1⟩ then some [true] else none) 0 = .ok (some t, 1) ∧
      proofs t [⟨⟨none, "p", [.constant "a"]⟩, []⟩, ⟨⟨none, "q", [.userVariable "Y"]⟩, []⟩]
        [⟨none, "p", [.renamedVariable 0 (.userVariable "Y")]⟩, ⟨none, "q", [.userVariable "Z"]⟩] =
        .ok [pr] ∧
      ¬ ∃ p ∈ flattenCompose 0 .query [] (goalIdRenaming
          [⟨none, "p", [.renamedVariable 0 (.userVariable "Y")]⟩, ⟨none, "q", [.userVariable "Z"]⟩]) t,
        ProvesGoal [⟨⟨none, "p", [.constant "a"]⟩, []⟩, ⟨⟨none, "q", [.userVariable "Y"]⟩, []⟩]
          [⟨none, "p", [.renamedVariable 0 (.userVariable "Y")]⟩, ⟨none, "q", [.userVariable "Z"]⟩]
          p.1 p.2 pr := by
  intro pr
  refine ⟨_, rfl, rfl, ?_⟩
  rintro ⟨p, -, -, -, -, hchildren⟩
  obtain ⟨k, -, hq⟩ := hchildren 1 _ _ rfl rfl
  cases hq with
  | rule _ _ _ hc hhead =>
      simp only [List.getElem?_cons_succ, List.getElem?_cons_zero, Option.some.injEq] at hc
      subst hc
      exact absurd hhead (by decide)

end Modus.Sld
