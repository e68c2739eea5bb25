import Modus.Sld.Answers
import Modus.Sld.Soundness

/-!
# Renamed apart

Before each use a rule is renamed, with ids drawn from the counter, so that its
variables are fresh. Along a root-to-leaf path of the tree of `sld`, the renamings
draw in order: the edge into node `j + 1` draws its ids in `[cs[j], cs[j + 1])`,
where `cs[j]` is the counter node `j`'s subtree was built from
(`inner_paths_drawn`). Everything node `j` holds, its goal and the unifiers so far,
was drawn before `cs[j]`. So while the whole run draws at most `2 ^ 32` ids and the
query has no renamed variables, no unifier of the path binds a variable that a
later renaming makes (`RunPath.renamed_apart`).

That is what makes the valuations `proof_for_level` gives each step agree with the
path's final unifier. A literal of the goal at node `j`, under the unifiers after
`j`, is the literal of the query or of the program it was made from under the
valuation of the step that introduced it (`RunPath.literal_target`).

## Main results

* `inner_paths_drawn` — the counters along every path of a tree of `inner`.
* `Chain.steps` — a chain, step by step, with the unifier of each edge.
* `RunPath.goal_idsIn`, `RunPath.mgu_idsIn` — node `j` holds ids drawn before `cs[j]`.
* `RunPath.renamed_apart` — a renaming draws ids no earlier unifier binds.
* `RunPath.literal_target` — each goal literal is its origin under its step's valuation.
-/

namespace Modus.Sld

open Modus.Logic Modus.Builtin

/-! ## The counters along a path -/

/-- The first node of every path of a tree is its root, reached by the given edge. -/
theorem flattenCompose_head {lid : Nat} {cid : ClauseId} {mgu ren : Substitution} {t : Tree}
    {p : Path} (hp : p ∈ flattenCompose lid cid mgu ren t) :
    ∃ rest, p.1 = ⟨t.goal, cid, lid, ren⟩ :: rest := by
  cases t with
  | mk goal level rs =>
      unfold flattenCompose at hp
      split at hp
      · exact ⟨[], by rw [List.mem_singleton.mp hp]; rfl⟩
      · obtain ⟨e, -, q, -, rfl⟩ := mem_flattenAll.mp hp
        exact ⟨q.1, rfl⟩

/-- The counters along a path: the renaming of the edge into node `j + 1` drew its
ids in `[cs[j], cs[j + 1])`, and no counter passes `hi`. -/
structure PathDraws (path : List PathNode) (cs : List Nat) (hi : Nat) : Prop where
  length : cs.length = path.length
  step : ∀ j a b node, cs[j]? = some a → cs[j + 1]? = some b → path[j + 1]? = some node →
    a ≤ b ∧ ∀ kv ∈ node.ren, kv.2.RenamedIn a b
  bound : ∀ c ∈ cs, c ≤ hi

theorem pathDraws_leaf (node : PathNode) (n : Nat) : PathDraws [node] [n] n :=
  ⟨rfl, fun _ _ _ _ _ hb _ => by simp at hb, by simp⟩

/-- **Every path of a tree of `inner` draws in order**, from the counter `inner`
started at to the counter it ended at. -/
theorem inner_paths_drawn {rules : List Clause} {grounded : GroundnessMap} (fuel : Nat) :
    ∀ {goal : GoalWithHistory} {level n : Nat} {t : Tree} {n' : Nat},
    inner rules grounded fuel goal level n = .ok (some t, n') →
    ∀ {lid : Nat} {cid : ClauseId} {mgu ren : Substitution} {p : Path},
      p ∈ flattenCompose lid cid mgu ren t → ∃ cs, cs[0]? = some n ∧ PathDraws p.1 cs n' := by
  have hleaf : ∀ {level n : Nat} {lid : Nat} {cid : ClauseId} {mgu ren : Substitution} {p : Path},
      p ∈ flattenCompose lid cid mgu ren (.mk [] level []) → ∃ cs, cs[0]? = some n ∧
        PathDraws p.1 cs n := fun hp => by
    simp only [flattenCompose, List.isEmpty_nil, if_true, List.mem_singleton] at hp
    subst hp
    exact ⟨[_], rfl, pathDraws_leaf _ _⟩
  induction fuel with
  | zero =>
      intro goal level n t n' h lid cid mgu ren p hp
      cases goal with
      | nil => obtain ⟨rfl, rfl⟩ := inner_nil_eq h; exact hleaf hp
      | cons g gs => simp [inner] at h
  | succ fuel ih =>
      intro goal level n t n' h lid cid mgu ren p hp
      cases goal with
      | nil => obtain ⟨rfl, rfl⟩ := inner_nil_eq h; exact hleaf hp
      | cons g gs =>
          obtain ⟨_, l, rs, -, rfl, -, hrs⟩ := inner_cons h (List.cons_ne_nil _ _)
          simp only [flattenCompose, List.isEmpty_cons, Bool.false_eq_true, if_false] at hp
          obtain ⟨e, he, q, hq, rfl⟩ := mem_flattenAll.mp hp
          obtain ⟨_, a, b, m', -, -, ha, hab, hm', hren, hv⟩ := hrs e he
          obtain ⟨cs, hcs, hdraws⟩ := ih hv hq
          obtain ⟨rest, hrest⟩ := flattenCompose_head hq
          have hn := inner_le (fuel + 1) h
          refine ⟨n :: cs, List.getElem?_cons_zero, ⟨by simp [hdraws.length],
            fun j a' b' node ha' hb' hnode => ?_,
            fun c hc => ?_⟩⟩
          · cases j with
            | zero =>
                simp only [List.getElem?_cons_zero, Option.some.injEq] at ha'
                simp only [List.getElem?_cons_succ, hcs, Option.some.injEq] at hb'
                simp only [List.getElem?_cons_succ, hrest, List.getElem?_cons_zero,
                  Option.some.injEq] at hnode
                subst ha' hb' hnode
                exact ⟨by omega, fun kv hkv => (hren kv hkv).mono ha le_rfl⟩
            | succ j =>
                rw [List.getElem?_cons_succ] at ha' hb' hnode
                exact hdraws.step j a' b' node ha' hb' hnode
          · rcases List.mem_cons.mp hc with rfl | hc
            · exact hn
            · exact (hdraws.bound c hc).trans hm'

/-! ## A chain, step by step -/

/-- The unifiers of a path from step `j` on, composed. -/
def composeFrom (mgus : List Substitution) (j : Nat) : Substitution :=
  (mgus.drop j).foldr composeExtend []

theorem composeFrom_of_getElem? {mgus : List Substitution} {j : Nat} {mgu : Substitution}
    (h : mgus[j]? = some mgu) : composeFrom mgus j = composeExtend mgu (composeFrom mgus (j + 1)) := by
  obtain ⟨hj, rfl⟩ := List.getElem?_eq_some_iff.mp h
  rw [composeFrom, List.drop_eq_getElem_cons hj]; rfl

/-- **A chain, step by step**: the unifier of the edge into each node, the first
being the chain's own, composes to the chain's unifier, and each node is reached
from the one before by an edge with that unifier. -/
theorem Chain.steps {rules : List Clause} {level : Nat} {path : List PathNode}
    {mgu σ : Substitution} (h : Chain rules level path mgu σ) :
    ∃ mgus : List Substitution, mgus.length = path.length ∧ mgus[0]? = some mgu ∧
      (∀ t : IRTerm, t.substitute σ = t.substitute (composeFrom mgus 0)) ∧
      ∀ j node next m, path[j]? = some node → path[j + 1]? = some next → mgus[j + 1]? = some m →
        ∃ l clause, node.resolvent[next.selected]? = some l ∧
          Edge rules l.literal next.applied m next.ren clause ∧
          next.resolvent = resolve next.selected next.applied node.resolvent m clause (level + j + 1) := by
  induction h with
  | last hnil =>
      refine ⟨[_], rfl, rfl, fun t => by simp [composeFrom], fun j _ _ _ _ hnext => ?_⟩
      simp at hnext
  | @step level node next rest mgu mgu' σ hne hedge hrest ih =>
      obtain ⟨mgus, hlen, h0, hσ, hsteps⟩ := ih
      refine ⟨mgu :: mgus, by simp [hlen], List.getElem?_cons_zero, fun t => ?_,
        fun j nd nx m hnd hnx hm => ?_⟩
      · rw [IRTerm.substitute_composeExtend, hσ]
        exact (IRTerm.substitute_composeExtend t _ _).symm
      · cases j with
        | zero =>
            simp only [List.getElem?_cons_zero, List.getElem?_cons_succ, Option.some.injEq,
              h0] at hnd hnx hm
            subst hnd hnx hm
            exact hedge
        | succ j =>
            rw [List.getElem?_cons_succ] at hnd hnx hm
            have := hsteps j nd nx m hnd hnx hm
            rwa [Nat.add_right_comm level 1 j] at this

/-! ## The paths of `sld` -/

/-- A root-to-leaf path of the tree of `sld` from counter `n`, step by step, with
its final unifier `σ`: `mgus[j]` is the unifier of the edge into node `j` (none
into the root), and `cs` are the counters along the path, all within `2 ^ 32` draws
of `n`. -/
structure RunPath (rules : List Clause) (goal : List Literal) (n : Nat) (path : List PathNode)
    (σ : Substitution) (mgus : List Substitution) (cs : List Nat) : Prop where
  root : path[0]? = some ⟨queryGoal goal, .query, 0, goalIdRenaming goal⟩
  length : mgus.length = path.length
  mgu_root : mgus[0]? = some []
  unifier : ∀ t : IRTerm, t.substitute σ = t.substitute (composeFrom mgus 0)
  edge : ∀ j node next m, path[j]? = some node → path[j + 1]? = some next →
    mgus[j + 1]? = some m → ∃ l clause, node.resolvent[next.selected]? = some l ∧
      Edge rules l.literal next.applied m next.ren clause ∧
      next.resolvent = resolve next.selected next.applied node.resolvent m clause (j + 1)
  draws : PathDraws path cs (n + 2 ^ 32)
  counter_root : cs[0]? = some n

/-- Every path of the tree of `sld` is a run path, when the run draws at most
`2 ^ 32` ids. -/
theorem sld_runPath {rules : List Clause} {goal : List Literal} {maxdepth : Nat}
    {grounded : GroundnessMap} {n : Nat} {t : Tree} {n' : Nat}
    (hsld : sld rules goal maxdepth grounded n = .ok (some t, n')) (hDraws : n' ≤ n + 2 ^ 32)
    {p : Path} (hp : p ∈ flattenCompose 0 .query [] (goalIdRenaming goal) t) :
    ∃ mgus cs, RunPath rules goal n p.1 p.2 mgus cs := by
  obtain ⟨rest, hP, hchain⟩ := sld_path hsld hp
  obtain ⟨mgus, hlen, h0, hσ, hsteps⟩ := hchain.steps
  obtain ⟨cs, hcs, hdraws⟩ := inner_paths_drawn maxdepth hsld hp
  refine ⟨mgus, cs, by rw [hP]; exact List.getElem?_cons_zero, hlen, h0, hσ, fun j node next m hnode hnext hm => ?_,
    ⟨hdraws.length, hdraws.step, fun c hc => (hdraws.bound c hc).trans hDraws⟩, hcs⟩
  simpa using hsteps j node next m hnode hnext hm

/-! ## Goals and edges -/

theorem mem_queryGoal {goal : List Literal} {lh : LiteralWithHistory} (h : lh ∈ queryGoal goal) :
    ∃ i l, goal[i]? = some l ∧ lh = ⟨l, 0, ⟨.query, i⟩⟩ := by
  obtain ⟨i, hi, rfl⟩ := List.mem_mapIdx.mp h
  exact ⟨i, _, List.getElem?_eq_getElem hi, rfl⟩

/-- A literal of a resolvent: a literal of the goal under the unifier, with its
history, or a body literal of the applied clause, introduced at the new level. -/
theorem mem_resolve {lid : Nat} {rid : ClauseId} {goal : GoalWithHistory} {mgu : Substitution}
    {clause : Clause} {level : Nat} {lh : LiteralWithHistory}
    (h : lh ∈ resolve lid rid goal mgu clause level) :
    (∃ lh₀ ∈ goal, lh = { lh₀ with literal := lh₀.literal.substitute mgu }) ∨
      ∃ i b, clause.body[i]? = some b ∧ lh = ⟨b.substitute mgu, level, ⟨rid, i⟩⟩ := by
  obtain ⟨lh₀, hlh₀, rfl⟩ := List.mem_map.mp h
  rcases List.mem_append.mp hlh₀ with hold | hnew
  · exact .inl ⟨lh₀, List.mem_of_mem_eraseIdx hold, rfl⟩
  · obtain ⟨i, hi, rfl⟩ := List.mem_mapIdx.mp hnew
    exact .inr ⟨i, _, List.getElem?_eq_getElem hi, rfl⟩

/-- An edge's unifier unifies the applied clause's head with the selected literal. -/
theorem Edge.unify_head {rules : List Clause} {lit : Literal} {cid : ClauseId}
    {mgu ren : Substitution} {clause : Clause} (h : Edge rules lit cid mgu ren clause) :
    clause.head.unify lit = some mgu := by
  cases h with
  | @builtin p head mgu hsel hres =>
      cases happ : p.apply lit with
      | error e => simp [BuiltinPredicate.resolvent, happ, Except.map] at hres
      | ok head? =>
          simp only [BuiltinPredicate.resolvent, happ, Except.map, Except.ok.injEq,
            Option.bind_eq_some, Option.map_eq_some'] at hres
          obtain ⟨head, rfl, mgu, hu, hpair⟩ := hres
          cases hpair
          exact hu
  | rule _ hu => exact hu

/-- The terms of the clause an edge applies: constants, terms of the selected
literal (a `run` or `from` fact is the literal itself), or values of the renaming. -/
theorem Edge.terms {rules : List Clause} {lit : Literal} {cid : ClauseId}
    {mgu ren : Substitution} {clause : Clause} (h : Edge rules lit cid mgu ren clause)
    {l : Literal} (hl : l = clause.head ∨ l ∈ clause.body) :
    ∀ t ∈ l.args, t.isGround = true ∨ t ∈ lit.args ∨ ∃ kv ∈ ren, kv.2 = t := by
  cases h with
  | @builtin p head mgu hsel hres =>
      simp only [List.not_mem_nil, or_false] at hl
      subst hl
      cases happ : p.apply lit with
      | error e => simp [BuiltinPredicate.resolvent, happ, Except.map] at hres
      | ok head? =>
          simp only [BuiltinPredicate.resolvent, happ, Except.map, Except.ok.injEq,
            Option.bind_eq_some, Option.map_eq_some'] at hres
          obtain ⟨head', rfl, _, _, hpair⟩ := hres
          cases hpair
          intro t ht
          rcases BuiltinPredicate.apply_eq_ok_some happ with ⟨-, a, b, rfl⟩ | ⟨-, rfl, -⟩
          · exact .inl (stringConcatResult_isGround a b _ t ht)
          · exact .inr (.inl ht)
  | @rule rid c n mgu hrid hu =>
      rw [Clause.renameWithSub_fst, Clause.substitute_head, Clause.substitute_body] at hl
      have hl' : ∃ l₀, (l₀ = c.head ∨ l₀ ∈ c.body) ∧ l = l₀.substitute (c.renameWithSub n).1.2 := by
        rcases hl with rfl | hl
        · exact ⟨c.head, .inl rfl, rfl⟩
        · obtain ⟨l₀, hl₀, rfl⟩ := List.mem_map.mp hl
          exact ⟨l₀, .inr hl₀, rfl⟩
      obtain ⟨l₀, hl₀, rfl⟩ := hl'
      exact fun t ht => (Clause.renameWithSub_terms hl₀ t ht).imp_right .inr

/-- A body literal of the clause an edge applies is a body literal of a rule of the
program, under the edge's renaming. -/
theorem Edge.body_getElem? {rules : List Clause} {lit : Literal} {cid : ClauseId}
    {mgu ren : Substitution} {clause : Clause} (h : Edge rules lit cid mgu ren clause) {i : Nat}
    {b : Literal} (hb : clause.body[i]? = some b) :
    ∃ rid c a b₀, cid = .rule rid ∧ rules[rid]? = some c ∧ ren = (c.renameWithSub a).1.2 ∧
      c.body[i]? = some b₀ ∧ b = b₀.substitute ren := by
  cases h with
  | builtin => simp at hb
  | @rule rid c a mgu hrid hu =>
      rw [Clause.renameWithSub_fst, Clause.substitute_body, List.getElem?_map] at hb
      cases hb₀ : c.body[i]? with
      | none => simp [hb₀] at hb
      | some b₀ =>
          simp only [hb₀, Option.map_some', Option.some.injEq] at hb
          exact ⟨rid, c, a, b₀, rfl, hrid, rfl, hb₀, hb.symm⟩

/-- **One step keeps the draws in order.** If the selected literal was drawn in
`[n, a)` and the renaming in `[a, b)`, the applied clause and the unifier were
drawn in `[n, b)`. -/
theorem Edge.idsIn {rules : List Clause} {lit : Literal} {cid : ClauseId}
    {mgu ren : Substitution} {clause : Clause} (h : Edge rules lit cid mgu ren clause)
    {n a b : Nat} (hlit : ∀ t ∈ lit.args, t.IdsIn n a) (hren : ∀ kv ∈ ren, kv.2.RenamedIn a b)
    (hna : n ≤ a) (hab : a ≤ b) :
    (∀ l, l = clause.head ∨ l ∈ clause.body → ∀ t ∈ l.args, t.IdsIn n b) ∧
      ∀ kv ∈ mgu, kv.1.IdsIn n b ∧ kv.2.IdsIn n b := by
  have hclause : ∀ l, l = clause.head ∨ l ∈ clause.body → ∀ t ∈ l.args, t.IdsIn n b := by
    intro l hl t ht
    rcases h.terms hl t ht with hg | ht | ⟨kv, hkv, rfl⟩
    · obtain ⟨c, rfl⟩ := IRTerm.isGround_iff.mp hg; exact IRTerm.idsIn_constant c
    · exact (hlit t ht).mono le_rfl hab
    · exact (hren kv hkv).idsIn hna le_rfl
  exact ⟨hclause, Literal.unify_closed _ h.unify_head (hclause _ (.inl rfl))
    fun t ht => (hlit t ht).mono le_rfl hab⟩

/-! ## Along a run path -/

/-- The literal of the query or of the program a goal literal was made from, before
renaming: literal `i` of the query, or body literal `i` of the rule. -/
def originLiteral (rules : List Clause) (goal : List Literal) : LiteralOrigin → Option Literal
  | ⟨.query, i⟩ => goal[i]?
  | ⟨.rule rid, i⟩ => (rules[rid]?).bind (·.body[i]?)
  | ⟨.builtin _, _⟩ => none

section RunPath

variable {rules : List Clause} {goal : List Literal} {n : Nat} {path : List PathNode}
  {σ : Substitution} {mgus : List Substitution} {cs : List Nat}

/-- A node, its counter and the unifier into it, at every index of the path. -/
theorem RunPath.at (hP : RunPath rules goal n path σ mgus cs) {j : Nat} (hj : j < path.length) :
    ∃ node a m, path[j]? = some node ∧ cs[j]? = some a ∧ mgus[j]? = some m := by
  have hc : j < cs.length := hP.draws.length ▸ hj
  have hm : j < mgus.length := hP.length ▸ hj
  exact ⟨path[j], cs[j], mgus[j], List.getElem?_eq_getElem hj, List.getElem?_eq_getElem hc,
    List.getElem?_eq_getElem hm⟩

theorem RunPath.literal_unifier (hP : RunPath rules goal n path σ mgus cs) (l : Literal) :
    l.substitute σ = l.substitute (composeFrom mgus 0) :=
  Literal.substitute_congr fun t _ => hP.unifier t

theorem RunPath.counter_succ (hP : RunPath rules goal n path σ mgus cs) {j a b : Nat}
    (ha : cs[j]? = some a) (hb : cs[j + 1]? = some b) : a ≤ b := by
  have hj : j + 1 < path.length := hP.draws.length ▸ (List.getElem?_eq_some_iff.mp hb).1
  exact (hP.draws.step j a b _ ha hb (List.getElem?_eq_getElem hj)).1

/-- The counters along a run path do not go back. -/
theorem RunPath.counter_mono (hP : RunPath rules goal n path σ mgus cs) {i : Nat} :
    ∀ {j a b : Nat}, i ≤ j → cs[i]? = some a → cs[j]? = some b → a ≤ b := by
  intro j
  induction j with
  | zero =>
      intro a b hij ha hb
      obtain rfl := Nat.le_zero.mp hij
      rw [ha] at hb; cases hb; exact le_rfl
  | succ j ih =>
      intro a b hij ha hb
      rcases Nat.eq_or_lt_of_le hij with rfl | hlt
      · rw [ha] at hb; cases hb; exact le_rfl
      · have hj : j < cs.length := by have := (List.getElem?_eq_some_iff.mp hb).1; omega
        exact (ih (by omega) ha (List.getElem?_eq_getElem hj)).trans
          (hP.counter_succ (List.getElem?_eq_getElem hj) hb)

theorem RunPath.le_counter (hP : RunPath rules goal n path σ mgus cs) {j c : Nat}
    (h : cs[j]? = some c) : n ≤ c :=
  hP.counter_mono (Nat.zero_le j) hP.counter_root h

theorem RunPath.counter_le (hP : RunPath rules goal n path σ mgus cs) {j c : Nat}
    (h : cs[j]? = some c) : c ≤ n + 2 ^ 32 :=
  hP.draws.bound c (List.mem_iff_getElem?.mpr ⟨j, h⟩)

/-- **Induction along a run path.** A property of goal literals that holds of the
query's, and that every edge carries from the goal it leaves to its resolvent,
holds of every literal of every node. -/
theorem RunPath.induction (hP : RunPath rules goal n path σ mgus cs)
    (Q : Nat → LiteralWithHistory → Prop) (hroot : ∀ lh ∈ queryGoal goal, Q 0 lh)
    (hstep : ∀ j node next m a b l clause, path[j]? = some node → path[j + 1]? = some next →
      mgus[j + 1]? = some m → cs[j]? = some a → cs[j + 1]? = some b →
      node.resolvent[next.selected]? = some l →
      Edge rules l.literal next.applied m next.ren clause → (∀ lh ∈ node.resolvent, Q j lh) →
      ∀ lh ∈ resolve next.selected next.applied node.resolvent m clause (j + 1), Q (j + 1) lh) :
    ∀ (j : Nat) (node : PathNode), path[j]? = some node → ∀ lh ∈ node.resolvent, Q j lh := by
  intro j
  induction j with
  | zero => intro node hnode; rw [hP.root] at hnode; cases hnode; exact hroot
  | succ j ih =>
      intro next hnext lh hlh
      have hj : j + 1 < path.length := (List.getElem?_eq_some_iff.mp hnext).1
      obtain ⟨node, a, -, hnode, ha, -⟩ := hP.at (Nat.lt_of_succ_lt hj)
      obtain ⟨-, b, m, -, hb, hm⟩ := hP.at hj
      obtain ⟨l, clause, hl, hedge, hres⟩ := hP.edge j node next m hnode hnext hm
      exact hstep j node next m a b l clause hnode hnext hm ha hb hl hedge (ih node hnode) lh
        (hres ▸ hlh)

/-- **What a node holds was drawn before its counter.** When the query has no
renamed variables, every term of the goal at node `j` has its ids drawn in
`[n, cs[j])`. -/
theorem RunPath.goal_idsIn (hP : RunPath rules goal n path σ mgus cs)
    (hG : ∀ l ∈ goal, ∀ t ∈ l.args, t.IdsIn n n) :
    ∀ (j : Nat) (node : PathNode), path[j]? = some node → ∀ lh ∈ node.resolvent, ∀ c : Nat, cs[j]? = some c →
      ∀ t ∈ lh.literal.args, t.IdsIn n c := by
  refine hP.induction (fun j lh => ∀ c, cs[j]? = some c → ∀ t ∈ lh.literal.args, t.IdsIn n c)
    (fun lh hlh c hc t ht => ?_)
    fun j node next m a b l clause hnode hnext hm ha hb hl hedge ih lh hlh c hc t ht => ?_
  · rw [hP.counter_root] at hc; cases hc
    obtain ⟨i, l, hl, rfl⟩ := mem_queryGoal hlh
    exact hG l (List.mem_iff_getElem?.mpr ⟨i, hl⟩) t ht
  · rw [hb] at hc; cases hc
    obtain ⟨hab, hren⟩ := hP.draws.step j a b next ha hb hnext
    obtain ⟨hclause, hmgu⟩ := hedge.idsIn (ih l (List.mem_iff_getElem?.mpr ⟨_, hl⟩) a ha) hren
      (hP.le_counter ha) hab
    rcases mem_resolve hlh with ⟨lh₀, hlh₀, rfl⟩ | ⟨i, b', hb', rfl⟩
    · obtain ⟨t₀, ht₀, rfl⟩ := List.mem_map.mp ht
      exact IRTerm.substitute_closed _ ((ih lh₀ hlh₀ a ha t₀ ht₀).mono le_rfl hab)
        fun kv hkv => (hmgu kv hkv).2
    · obtain ⟨t₀, ht₀, rfl⟩ := List.mem_map.mp ht
      exact IRTerm.substitute_closed _
        (hclause b' (.inr (List.mem_iff_getElem?.mpr ⟨i, hb'⟩)) t₀ ht₀) fun kv hkv => (hmgu kv hkv).2

/-- The unifier into node `j` binds terms drawn before `cs[j]`. -/
theorem RunPath.mgu_idsIn (hP : RunPath rules goal n path σ mgus cs)
    (hG : ∀ l ∈ goal, ∀ t ∈ l.args, t.IdsIn n n) :
    ∀ (j : Nat) (m : Substitution) (c : Nat), mgus[j]? = some m → cs[j]? = some c → ∀ kv ∈ m, kv.1.IdsIn n c ∧ kv.2.IdsIn n c
  | 0, m, c, hm, _, kv, hkv => by rw [hP.mgu_root] at hm; cases hm; cases hkv
  | j + 1, m, b, hm, hb, kv, hkv => by
      have hj : j + 1 < path.length := hP.length ▸ (List.getElem?_eq_some_iff.mp hm).1
      obtain ⟨node, a, -, hnode, ha, -⟩ := hP.at (Nat.lt_of_succ_lt hj)
      obtain ⟨next, -, -, hnext, -, -⟩ := hP.at hj
      obtain ⟨l, clause, hl, hedge, -⟩ := hP.edge j node next m hnode hnext hm
      obtain ⟨hab, hren⟩ := hP.draws.step j a b next ha hb hnext
      exact (hedge.idsIn (hP.goal_idsIn hG j node hnode l (List.mem_iff_getElem?.mpr ⟨_, hl⟩) a ha)
        hren (hP.le_counter ha) hab).2 kv hkv

/-- **Renamed apart.** The renaming of the edge into node `k + 1` draws ids that no
unifier before it binds: on a term it makes, the unifiers from any earlier step on
act as those from step `k + 1` on. -/
theorem RunPath.renamed_apart (hP : RunPath rules goal n path σ mgus cs)
    (hG : ∀ l ∈ goal, ∀ t ∈ l.args, t.IdsIn n n) {k a b : Nat} (ha : cs[k]? = some a)
    (hb : cs[k + 1]? = some b) {t : IRTerm} (ht : t.RenamedIn a b) :
    ∀ j ≤ k + 1, t.substitute (composeFrom mgus j) = t.substitute (composeFrom mgus (k + 1)) := by
  have hlen : k + 1 < path.length := hP.draws.length ▸ (List.getElem?_eq_some_iff.mp hb).1
  suffices h : ∀ d j, j + d = k + 1 →
      t.substitute (composeFrom mgus j) = t.substitute (composeFrom mgus (k + 1)) from
    fun j hj => h (k + 1 - j) j (by omega)
  intro d
  induction d with
  | zero => intro j hj; rw [show j = k + 1 by omega]
  | succ d ih =>
      intro j hj
      obtain ⟨-, c, m, -, hc, hm⟩ := hP.at (show j < path.length by omega)
      have hfix : t.substitute m = t := by
        cases hg : t.isGround
        · exact IRTerm.substitute_of_forall_ne fun kv hkv =>
            (ht.ne hg (hP.mgu_idsIn hG j m c hm hc kv hkv).1 (hP.counter_mono (by omega) hc ha)
              (hP.counter_le hb)).symm
        · exact IRTerm.substitute_of_isGround hg m
      rw [composeFrom_of_getElem? hm, IRTerm.substitute_composeExtend, hfix, ih (j + 1) (by omega)]

/-- Along a run path, `run` and `from` keep one argument, when they have one in the
query and the program. -/
theorem RunPath.goal_arity (hP : RunPath rules goal n path σ mgus cs)
    (hGa : ∀ l ∈ goal, BuiltinArity l) (hR : ∀ c ∈ rules, ∀ b ∈ c.body, BuiltinArity b) :
    ∀ (j : Nat) (node : PathNode), path[j]? = some node → ∀ lh ∈ node.resolvent, BuiltinArity lh.literal := by
  refine hP.induction (fun _ lh => BuiltinArity lh.literal) (fun lh hlh => ?_)
    fun j node next m a b l clause _ _ _ _ _ _ hedge ih lh hlh => ?_
  · obtain ⟨i, l, hl, rfl⟩ := mem_queryGoal hlh
    exact hGa l (List.mem_iff_getElem?.mpr ⟨i, hl⟩)
  · rcases mem_resolve hlh with ⟨lh₀, hlh₀, rfl⟩ | ⟨i, b', hb', rfl⟩
    · exact (ih lh₀ hlh₀).substitute m
    · exact (hedge.body_arity hR b' (List.mem_iff_getElem?.mpr ⟨i, hb'⟩)).substitute m

/-- **Each goal literal is its origin under its step's valuation.** When the query
has no renamed variables, a literal of the goal at node `j`, under the unifiers
after `j`, is the literal of the query or of the program it was made from, under
`compose_no_extend` of the renaming of the step that introduced it with the path's
unifier. -/
theorem RunPath.literal_target (hP : RunPath rules goal n path σ mgus cs)
    (hG : ∀ l ∈ goal, ∀ t ∈ l.args, t.IdsIn n n) :
    ∀ (j : Nat) (node : PathNode), path[j]? = some node → ∀ lh ∈ node.resolvent, ∃ b nd,
      originLiteral rules goal lh.origin = some b ∧ path[lh.introduction]? = some nd ∧
      nd.applied = lh.origin.clause ∧
      lh.literal.substitute (composeFrom mgus (j + 1)) = b.substitute (composeNoExtend nd.ren σ) := by
  refine hP.induction (fun j lh => ∃ b nd, originLiteral rules goal lh.origin = some b ∧
      path[lh.introduction]? = some nd ∧ nd.applied = lh.origin.clause ∧
      lh.literal.substitute (composeFrom mgus (j + 1)) = b.substitute (composeNoExtend nd.ren σ))
    (fun lh hlh => ?_) fun j node next m a b l clause hnode hnext hm ha hb hl hedge ih lh hlh => ?_
  · obtain ⟨i, l, hl, rfl⟩ := mem_queryGoal hlh
    refine ⟨l, _, hl, hP.root, rfl, ?_⟩
    rw [substitute_goalIdRenaming (List.mem_iff_getElem?.mpr ⟨i, hl⟩), hP.literal_unifier,
      composeFrom_of_getElem? hP.mgu_root, composeExtend_nil_left]
  · rcases mem_resolve hlh with ⟨lh₀, hlh₀, rfl⟩ | ⟨i, b', hb', rfl⟩
    · obtain ⟨b₀, nd, hb₀, hnd, happ, heq⟩ := ih lh₀ hlh₀
      refine ⟨b₀, nd, hb₀, hnd, happ, ?_⟩
      rw [← heq, ← Literal.substitute_composeExtend, ← composeFrom_of_getElem? hm]
    · obtain ⟨rid, c, a', b₀, happ, hc, hren, hb₀, rfl⟩ := hedge.body_getElem? hb'
      have hbody : b₀ = c.head ∨ b₀ ∈ c.body := .inr (List.mem_iff_getElem?.mpr ⟨i, hb₀⟩)
      refine ⟨b₀, next, by simp [originLiteral, happ, hc, hb₀], hnext, rfl, ?_⟩
      have hwin := (hP.draws.step j a b next ha hb hnext).2
      have hapart : (b₀.substitute next.ren).substitute (composeFrom mgus (j + 1)) =
          (b₀.substitute next.ren).substitute (composeFrom mgus 0) := by
        refine Literal.substitute_congr fun t ht => (hP.renamed_apart hG ha hb ?_ 0 (by omega)).symm
        rw [hren] at ht
        rcases Clause.renameWithSub_terms hbody t ht with hg | ⟨kv, hkv, rfl⟩
        · exact .inl hg
        · exact hwin kv (hren ▸ hkv)
      rw [← Literal.substitute_composeExtend, ← composeFrom_of_getElem? hm, hapart,
        ← hP.literal_unifier, hren, Clause.substitute_composeNoExtend_renaming hbody]

end RunPath

end Modus.Sld
