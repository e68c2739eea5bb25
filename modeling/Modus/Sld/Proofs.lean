import Modus.Sld.Derivation

/-!
# Proof reconstruction

`proofs` in `sld.rs` enumerates the root-to-leaf paths of an SLD tree
(`flatten_compose`), composing the edge unifiers along each path, and rebuilds a
proof tree from each path by levels (`proof_for_level`): the children of the step
at level `k` are the later steps whose selected literal was introduced at `k`,
ordered by that literal's body index. The reconstruction asserts that it found as
many children as the applied clause has body literals; an assertion, an index
past the end or an `unwrap` of `None` panics, and each is an `Except.error` here.
`proof_for_level` recurses into the children without a bound; we give it
`path.length + 1` levels of recursion, which suffices exactly when each child
level lies above its parent's, and run out where the source would recurse forever.

Finally `proofs` keeps the first proof of each answer.

## Main results

* `flattenCompose_snd` — the unifiers of the paths are those `solutions` composes.
* `flattenCompose_chain` — every path of a well-formed tree is a chain of edges
  ending at the empty goal, and its unifier composes the edge unifiers.
-/

namespace Modus.Sld

open Modus.Logic Modus.Builtin

/-! ## Definitions -/

/-- `PathNode`: a goal, and the clause, selected index and renaming (`ren`) of the
edge that led to it. -/
structure PathNode where
  resolvent : GoalWithHistory
  applied : ClauseId
  selected : Nat
  ren : Substitution

/-- `Path`: the nodes from the root to a leaf, and the composed unifier. -/
abbrev Path := List PathNode × Substitution

/-- `Proof`: the clause applied, its valuation, and the proofs of its body. -/
inductive Proof where
  | mk (clause : ClauseId) (valuation : Substitution) (children : List Proof)

/-- The valuation of a proof's root. -/
def Proof.valuation : Proof → Substitution
  | .mk _ valuation _ => valuation

mutual
/-- `flatten_compose`: the paths of `tree`, reached by the edge `(lid, cid, mgu,
ren)`; each path's unifier composes the edge unifiers from this edge down. -/
def flattenCompose (lid : Nat) (cid : ClauseId) (mgu ren : Substitution) : Tree → List Path
  | .mk goal _ rs =>
      if goal.isEmpty then [([⟨goal, cid, lid, ren⟩], mgu)]
      else flattenAll goal lid cid mgu ren rs

/-- `flatten_compose` over a resolvent map, in its order. -/
def flattenAll (goal : GoalWithHistory) (lid : Nat) (cid : ClauseId) (mgu ren : Substitution) :
    List Entry → List Path
  | [] => []
  | ((subLid, subCid), subMgu, subRen, subTree) :: rs =>
      (flattenCompose subLid subCid subMgu subRen subTree).map
          (fun q => (⟨goal, cid, lid, ren⟩ :: q.1, composeExtend mgu q.2)) ++
        flattenAll goal lid cid mgu ren rs
end

/-- `xs[i]`: an index past the end panics. -/
def index {α : Type} (xs : List α) (i : Nat) : Except String α :=
  match xs[i]? with
  | some x => .ok x
  | none => .error "index out of bounds"

theorem index_eq_ok {α : Type} {xs : List α} {i : Nat} {x : α} :
    index xs i = .ok x ↔ xs[i]? = some x := by
  unfold index; cases xs[i]? <;> simp

theorem index_of_getElem? {α : Type} {xs : List α} {i : Nat} {x : α} (h : xs[i]? = some x) :
    index xs i = .ok x :=
  index_eq_ok.mpr h

/-- `assert!`. -/
def assertTrue (b : Bool) : Except String Unit :=
  if b then .ok () else .error "assertion failed"

/-- `HashMap::insert` on a map kept as an association list. -/
def insertKey (m : List (Nat × Nat)) (k v : Nat) : List (Nat × Nat) :=
  if m.any (·.1 == k) then m.map fun e => if e.1 = k then (k, v) else e else m ++ [(k, v)]

/-- The loop of `proof_for_level` over the steps `ls` of the path: a step `l` whose
goal is not empty looks at the literal step `l + 1` selects from it, and records
its body index against `l + 1` if that literal was introduced at `level`. -/
def sublevelsLoop (path : List PathNode) (level : Nat) :
    List Nat → List (Nat × Nat) → Except String (List (Nat × Nat))
  | [], m => .ok m
  | l :: ls, m => do
      let node ← index path l
      if node.resolvent.isEmpty then sublevelsLoop path level ls m
      else
        let child ← index node.resolvent (← index path (l + 1)).selected
        if child.introduction = level then
          sublevelsLoop path level ls (insertKey m child.origin.bodyIndex (l + 1))
        else sublevelsLoop path level ls m

/-- `*sublevels_map.get(&i).unwrap()`. -/
def getUnwrap (m : List (Nat × Nat)) (i : Nat) : Except String Nat :=
  match (m.find? (·.1 == i)).map (·.2) with
  | some l => .ok l
  | none => .error "called `Option::unwrap()` on a `None` value"

/-- The assertion of `proof_for_level` on the number of children of the step. -/
def childrenAssertion (path : List PathNode) (rules : List Clause) (childrenLength : Nat) :
    ClauseId → Except String Unit
  | .query => do assertTrue (childrenLength == (← index path 0).resolvent.length)
  | .rule rid => do assertTrue (childrenLength == (← index rules rid).body.length)
  | .builtin _ => assertTrue (childrenLength == 0)

/-- `proof_for_level`, with `fuel` levels of recursion left. -/
def proofForLevel (path : List PathNode) (mgu : Substitution) (rules : List Clause) :
    Nat → Nat → Except String Proof
  | 0, _ => .error "stack overflow"
  | fuel + 1, level => do
      let sublevelsMap ← sublevelsLoop path level (List.range path.length) []
      let node ← index path level
      childrenAssertion path rules sublevelsMap.length node.applied
      for k in sublevelsMap.map (·.1) do
        assertTrue (k < sublevelsMap.length)
      let sublevels ← (List.range sublevelsMap.length).mapM (getUnwrap sublevelsMap)
      let children ← sublevels.mapM (proofForLevel path mgu rules fuel)
      pure (.mk node.applied (composeNoExtend node.ren mgu) children)

/-- What `proof_for_level` returns: the step's clause, `compose_no_extend` of the
step's renaming with the path's unifier, and the proofs for the steps the loop
over the path found, in body-index order. -/
theorem proofForLevel_eq_ok {path : List PathNode} {mgu : Substitution} {rules : List Clause}
    {fuel level : Nat} {pr : Proof} (h : proofForLevel path mgu rules (fuel + 1) level = .ok pr) :
    ∃ xs node ys children, sublevelsLoop path level (List.range path.length) [] = .ok xs ∧
      path[level]? = some node ∧ (List.range xs.length).mapM (getUnwrap xs) = .ok ys ∧
      ys.mapM (proofForLevel path mgu rules fuel) = .ok children ∧
      pr = .mk node.applied (composeNoExtend node.ren mgu) children := by
  simp only [proofForLevel] at h
  obtain ⟨xs, hxs, h⟩ := bind_eq_ok.mp h
  obtain ⟨node, hnode, h⟩ := bind_eq_ok.mp h
  obtain ⟨_, -, h⟩ := bind_eq_ok.mp h
  obtain ⟨_, -, h⟩ := bind_eq_ok.mp h
  obtain ⟨ys, hys, h⟩ := bind_eq_ok.mp h
  obtain ⟨children, hch, h⟩ := bind_eq_ok.mp h
  cases h
  exact ⟨xs, node, ys, children, hxs, index_eq_ok.mp hnode, hys, hch, rfl⟩

/-- The identity renaming of the goal's variables. -/
def goalIdRenaming (goal : List Literal) : Substitution :=
  (goal.flatMap Literal.vars).dedup.map fun v => (v, v)

/-- The de-duplication of `proofs`: a proof is kept if no earlier kept proof has
the same projection of the goal. -/
def dedupProofs (goal : List Literal) : List Proof → List (List Literal) → List Proof
  | [], _ => []
  | p :: ps, computed =>
      if goal.map (·.substitute p.valuation) ∈ computed then dedupProofs goal ps computed
      else p :: dedupProofs goal ps (goal.map (·.substitute p.valuation) :: computed)

/-- `proofs(tree, rules, goal)`. -/
def proofs (tree : Tree) (rules : List Clause) (goal : List Literal) : Except String (List Proof) := do
  let paths := flattenCompose 0 .query [] (goalIdRenaming goal) tree
  let allProofs ← paths.mapM fun p => proofForLevel p.1 p.2 rules (p.1.length + 1) 0
  pure (dedupProofs goal allProofs [])

/-! ## Paths -/

mutual
/-- The unifiers `flatten_compose` builds are the ones `solutions` builds, composed
after the unifier of the edge into the tree. -/
theorem flattenCompose_snd (lid : Nat) (cid : ClauseId) (mgu ren : Substitution) :
    (t : Tree) → (flattenCompose lid cid mgu ren t).map (·.2) =
      (solutionsInner t).map (composeExtend mgu)
  | .mk goal level rs => by
      unfold flattenCompose solutionsInner
      split
      · simp
      · exact flattenAll_snd goal lid cid mgu ren rs

/-- `flattenCompose_snd` over a resolvent map. -/
theorem flattenAll_snd (goal : GoalWithHistory) (lid : Nat) (cid : ClauseId)
    (mgu ren : Substitution) :
    (rs : List Entry) → (flattenAll goal lid cid mgu ren rs).map (·.2) =
      (solutionsAll rs).map (composeExtend mgu)
  | [] => rfl
  | ((subLid, subCid), subMgu, subRen, subTree) :: rs => by
      have hsub := flattenCompose_snd subLid subCid subMgu subRen subTree
      have hrest := flattenAll_snd goal lid cid mgu ren rs
      simp only [flattenAll, solutionsAll, List.map_append, hrest]
      congr 1
      rw [List.map_map]
      trans ((flattenCompose subLid subCid subMgu subRen subTree).map (·.2)).map (composeExtend mgu)
      · rw [List.map_map]; rfl
      · rw [hsub, List.map_map]
end

/-- A chain of path nodes, the first at tree level `level` and reached by an edge
with unifier `mgu`, whose composed unifier is `σ`. Each node but the last has a
non-empty goal and is joined to the next by an edge from the literal the next node
selected; the last node has the empty goal, and there `σ` is the last unifier. -/
inductive Chain (rules : List Clause) : Nat → List PathNode → Substitution → Substitution → Prop
  | last {level : Nat} {node : PathNode} {mgu : Substitution} (hnil : node.resolvent = []) :
      Chain rules level [node] mgu mgu
  | step {level : Nat} {node next : PathNode} {rest : List PathNode} {mgu mgu' σ : Substitution}
      (hne : node.resolvent ≠ [])
      (hedge : ∃ l clause, node.resolvent[next.selected]? = some l ∧
        Edge rules l.literal next.applied mgu' next.ren clause ∧
        next.resolvent = resolve next.selected next.applied node.resolvent mgu' clause (level + 1))
      (hrest : Chain rules (level + 1) (next :: rest) mgu' σ) :
      Chain rules level (node :: next :: rest) mgu (composeExtend mgu σ)

/-- A path of a node: the node's own step, then a path of one of its children. -/
theorem mem_flattenAll {goal : GoalWithHistory} {lid : Nat} {cid : ClauseId}
    {mgu ren : Substitution} {rs : List Entry} {p : Path} :
    p ∈ flattenAll goal lid cid mgu ren rs ↔ ∃ e ∈ rs,
      ∃ q ∈ flattenCompose e.1.1 e.1.2 e.2.1 e.2.2.1 e.2.2.2,
        p = (⟨goal, cid, lid, ren⟩ :: q.1, composeExtend mgu q.2) := by
  induction rs with
  | nil => simp only [flattenAll, List.not_mem_nil, false_and, exists_false]
  | cons e rs ih =>
      obtain ⟨⟨subLid, subCid⟩, subMgu, subRen, subTree⟩ := e
      simp only [flattenAll, List.mem_append, List.mem_map, ih, List.mem_cons]
      constructor
      · rintro (⟨q, hq, rfl⟩ | ⟨e, he, q, hq, rfl⟩)
        · exact ⟨_, .inl rfl, q, hq, rfl⟩
        · exact ⟨e, .inr he, q, hq, rfl⟩
      · rintro ⟨e, rfl | he, q, hq, rfl⟩
        · exact .inl ⟨q, hq, rfl⟩
        · exact .inr ⟨e, he, q, hq, rfl⟩

/-- **Every path of a well-formed tree is a chain** from the tree's level, starting
at the tree's goal, whose unifier composes the edge unifiers. -/
theorem flattenCompose_chain {rules : List Clause} {t : Tree} (ht : t.WF rules) :
    ∀ {lid : Nat} {cid : ClauseId} {mgu ren : Substitution} {p : Path},
      p ∈ flattenCompose lid cid mgu ren t →
      Chain rules t.level p.1 mgu p.2 ∧ p.1.head? = some ⟨t.goal, cid, lid, ren⟩ := by
  induction ht with
  | leaf level =>
      intro lid cid mgu ren p hp
      simp only [flattenCompose, List.isEmpty_nil, if_true, List.mem_singleton] at hp
      subst hp
      exact ⟨.last rfl, rfl⟩
  | @node goal level rs hgoal hedge hsub ih =>
      intro lid cid mgu ren p hp
      simp only [flattenCompose, List.isEmpty_iff, hgoal, if_false] at hp
      obtain ⟨e, he, ⟨qs, σ⟩, hq, rfl⟩ := mem_flattenAll.mp hp
      obtain ⟨hchain, hhead⟩ := ih e he hq
      obtain ⟨l, clause, hl, hed, hg, hlv⟩ := hedge e he
      cases qs with
      | nil => cases hhead
      | cons next rest =>
          simp only [List.head?_cons, Option.some.injEq] at hhead
          subst hhead
          rw [hlv] at hchain
          exact ⟨.step hgoal ⟨l, clause, hl, hed, hg⟩ hchain, rfl⟩

end Modus.Sld
