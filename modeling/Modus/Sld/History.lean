import Modus.Sld.Proofs

/-!
# The literal history along a path

`resolve` removes the selected literal and appends the applied clause's body, each
literal tagged with the level that introduced it and its body index; substitution
leaves the tags alone. Along a path that ends at the empty goal every tagged
literal is therefore selected exactly once, at a later step. This is what
`proof_for_level` relies on: the children it finds for level `k` are exactly the
body indices `0, …, n_k - 1` of the clause applied at `k`, at steps after `k`, so
none of its assertions, indexings or `unwrap`s fails and its recursion goes up the
path.

## Main results

* `selections_perm` — the histories a chain selects are those of its first goal
  and those its edges introduce, each once.
* `selections_step_lt` — each literal is selected after the level that introduced it.
* `proofs_terminate` — for every tree of `sld`, `proofs` returns, and along every
  path the children of each level are its clause's body indices, at later steps.
-/

namespace Modus.Sld

open Modus.Logic Modus.Builtin

/-! ## Histories -/

/-- The history of a goal: each literal's introduction level and body index. -/
def hist (g : GoalWithHistory) : List (Nat × Nat) :=
  g.map fun lh => (lh.introduction, lh.origin.bodyIndex)

/-- How many body literals the clause `cid` names has: a rule's body length, and
none for a builtin fact (or the query, which no edge applies). -/
def bodyCount (rules : List Clause) : ClauseId → Nat
  | .rule rid => ((rules[rid]?).map (·.body.length)).getD 0
  | _ => 0

/-- The literals a path selects, in order: for each step after the first, the
history of the literal it selects from the goal before it, and the step's number. -/
def selections : Nat → List PathNode → List ((Nat × Nat) × Nat)
  | level, node :: next :: rest =>
      match node.resolvent[next.selected]? with
      | some lit => ((lit.introduction, lit.origin.bodyIndex), level + 1) ::
          selections (level + 1) (next :: rest)
      | none => selections (level + 1) (next :: rest)
  | _, _ => []

/-- The histories the edges of a path introduce: at step `level + 1`, the body
indices of the clause applied there. -/
def introduced (rules : List Clause) : Nat → List PathNode → List (Nat × Nat)
  | level, _ :: next :: rest => (List.range (bodyCount rules next.applied)).map (level + 1, ·) ++
      introduced rules (level + 1) (next :: rest)
  | _, _ => []

/-- `n_k`: how many literals the step applying `cid` introduces: the query's
length at the root, the body length of the clause applied at any other step. -/
def introducedCount (rules : List Clause) (queryLength : Nat) : ClauseId → Nat
  | .query => queryLength
  | .rule rid => bodyCount rules (.rule rid)
  | .builtin _ => 0

theorem hist_substituteGoal (g : GoalWithHistory) (s : Substitution) :
    hist (substituteGoal g s) = hist g := by
  simp [hist, substituteGoal, Function.comp_def]

theorem hist_mapIdx (body : List Literal) (rid : ClauseId) (level : Nat) :
    hist (body.mapIdx fun id l => ⟨l, level, ⟨rid, id⟩⟩) =
      (List.range body.length).map (level, ·) := by
  refine List.ext_getElem? fun i => ?_
  simp only [hist, List.getElem?_map, List.getElem?_mapIdx]
  by_cases hi : i < body.length
  · simp [List.getElem?_range hi, List.getElem?_eq_getElem hi]
  · have hr : (List.range body.length)[i]? = none := List.getElem?_eq_none (by simpa using hi)
    simp [List.getElem?_eq_none (Nat.le_of_not_lt hi), hr]

/-- What `resolve` does to the history of the goal. -/
theorem hist_resolve (lid : Nat) (rid : ClauseId) (goal : GoalWithHistory) (mgu : Substitution)
    (clause : Clause) (level : Nat) :
    hist (resolve lid rid goal mgu clause level) =
      (hist goal).eraseIdx lid ++ (List.range clause.body.length).map (level, ·) := by
  rw [resolve, hist_substituteGoal, hist, List.map_append, ← hist, ← hist, hist_mapIdx]
  congr 1
  simp only [hist, List.eraseIdx_eq_take_drop_succ, List.map_append, List.map_take, List.map_drop]

/-- Removing the element at a valid index and putting it in front is a permutation. -/
theorem perm_cons_eraseIdx {α : Type} {l : List α} {i : Nat} {a : α} (h : l[i]? = some a) :
    l.Perm (a :: l.eraseIdx i) := by
  induction l generalizing i with
  | nil => simp at h
  | cons b l ih =>
      cases i with
      | zero => simp_all
      | succ i =>
          simp only [List.getElem?_cons_succ] at h
          simp only [List.eraseIdx_cons_succ]
          exact (List.Perm.cons b (ih h)).trans (List.Perm.swap a b _)

/-- An edge applies a clause with as many body literals as the clause it names. -/
theorem Edge.body_length {rules : List Clause} {lit : Literal} {cid : ClauseId}
    {mgu ren : Substitution} {clause : Clause} (h : Edge rules lit cid mgu ren clause) :
    clause.body.length = bodyCount rules cid := by
  cases h with
  | builtin => rfl
  | rule hrid => simp [bodyCount, hrid, Clause.renameWithSub]

/-- An edge never applies the query. -/
theorem Edge.ne_query {rules : List Clause} {lit : Literal} {cid : ClauseId}
    {mgu ren : Substitution} {clause : Clause} (h : Edge rules lit cid mgu ren clause) :
    cid ≠ .query := by
  cases h <;> simp

/-- A rule an edge applies is in the program. -/
theorem Edge.rule_mem {rules : List Clause} {lit : Literal} {rid : Nat}
    {mgu ren : Substitution} {clause : Clause} (h : Edge rules lit (.rule rid) mgu ren clause) :
    ∃ c, rules[rid]? = some c := by
  cases h with
  | rule hrid => exact ⟨_, hrid⟩

theorem introducedCount_of_ne_query {rules : List Clause} {q : Nat} {cid : ClauseId}
    (h : cid ≠ .query) : introducedCount rules q cid = bodyCount rules cid := by
  cases cid <;> simp_all [introducedCount, bodyCount]

/-- Every node of a chain after the first was reached by an edge. -/
theorem Chain.edge_of_mem {rules : List Clause} {level : Nat} {node : PathNode}
    {rest : List PathNode} {mgu σ : Substitution} (h : Chain rules level (node :: rest) mgu σ) :
    ∀ nd ∈ rest, ∃ lit mgu ren clause, Edge rules lit nd.applied mgu ren clause := by
  generalize hnodes : node :: rest = nodes at h
  induction h generalizing node rest with
  | last => cases hnodes; simp
  | @step level node next rest' mgu mgu' σ' hne hedge hrest ih =>
      cases hnodes
      obtain ⟨l, clause, -, hed, -⟩ := hedge
      intro nd hnd
      rcases List.mem_cons.mp hnd with rfl | hnd
      · exact ⟨_, _, _, _, hed⟩
      · exact ih rfl nd hnd

/-- The histories a path introduces are tagged with later levels. -/
theorem introduced_fst {rules : List Clause} {level : Nat} {path : List PathNode} :
    ∀ x ∈ introduced rules level path, level < x.1 := by
  induction level, path using introduced.induct rules with
  | case1 level node next rest ih =>
      simp only [introduced, List.mem_append, List.mem_map]
      rintro x (⟨i, -, rfl⟩ | hx)
      · exact Nat.lt_succ_self level
      · exact Nat.lt_of_succ_lt (ih x hx)
  | case2 path level hpath =>
      match path, hpath with
      | [], _ => simp [introduced]
      | [_], _ => simp [introduced]
      | _ :: _ :: _, hpath => exact (hpath _ _ _ rfl).elim

/-- The body indices a path introduces at step `level + (j + 1)`: those of the
clause applied there. -/
theorem introduced_filter {rules : List Clause} {level : Nat} {path : List PathNode} (j : Nat) :
    ((introduced rules level path).filter (·.1 = level + (j + 1))).map (·.2) =
      ((path[j + 1]?).map fun nd => List.range (bodyCount rules nd.applied)).getD [] := by
  induction level, path using introduced.induct rules generalizing j with
  | case1 level node next rest ih =>
      cases j with
      | zero =>
          simp [introduced, List.filter_map, Function.comp_def]
          exact fun a b h => Nat.ne_of_gt (introduced_fst _ h)
      | succ j =>
          have := ih j
          rw [show level + 1 + (j + 1) = level + (j + 1 + 1) by omega] at this
          simp only [introduced, List.filter_append, List.map_append, List.filter_map, this]
          simp [Function.comp_def]
  | case2 path level hpath =>
      match path, hpath with
      | [], _ => simp [introduced]
      | [_], _ => simp [introduced]
      | _ :: _ :: _, hpath => exact (hpath _ _ _ rfl).elim

/-- Each step a path selects at is one of its nodes. -/
theorem selections_lt {level : Nat} {path : List PathNode} :
    ∀ x ∈ selections level path, x.2 < level + path.length := by
  induction level, path using selections.induct with
  | case1 level node next rest lit hlit ih =>
      simp only [selections, hlit, List.mem_cons, List.length_cons]
      rintro x (rfl | hx)
      · simp only; omega
      · have := ih x hx; simp only [List.length_cons] at this; omega
  | case2 level node next rest hlit ih =>
      simp only [selections, hlit, List.length_cons]
      intro x hx; have := ih x hx; simp only [List.length_cons] at this; omega
  | case3 path level hpath =>
      match path, hpath with
      | [], _ => simp [selections]
      | [_], _ => simp [selections]
      | _ :: _ :: _, hpath => exact (hpath _ _ _ rfl).elim

/-! ## Each literal is selected once, after it is introduced -/

/-- **History invariant.** The histories a chain selects are, up to order, those
of its first goal and those its edges introduce. -/
theorem selections_perm {rules : List Clause} {level : Nat} {node : PathNode}
    {rest : List PathNode} {mgu σ : Substitution} (h : Chain rules level (node :: rest) mgu σ) :
    ((selections level (node :: rest)).map (·.1)).Perm
      (hist node.resolvent ++ introduced rules level (node :: rest)) := by
  generalize hnodes : node :: rest = nodes at h
  induction h generalizing node rest with
  | last hnil =>
      cases hnodes
      simp [selections, introduced, hist, hnil]
  | @step level node next rest' mgu mgu' σ' hne hedge hrest ih =>
      cases hnodes
      obtain ⟨l, clause, hl, hed, hg⟩ := hedge
      have hsel : (hist node.resolvent)[next.selected]? =
          some (l.introduction, l.origin.bodyIndex) := by
        simp [hist, hl]
      have hnext : hist next.resolvent = (hist node.resolvent).eraseIdx next.selected ++
          (List.range (bodyCount rules next.applied)).map (level + 1, ·) := by
        rw [hg, hist_resolve, hed.body_length]
      simp only [selections, hl, List.map_cons, introduced]
      refine (List.Perm.cons _ (ih rfl)).trans ?_
      rw [hnext]
      simpa [List.append_assoc] using (perm_cons_eraseIdx hsel).symm.append_right
        ((List.range (bodyCount rules next.applied)).map (level + 1, ·) ++
          introduced rules (level + 1) (next :: rest'))

/-- **Selections come later.** If the first goal of a chain holds no literal
introduced after the chain's level, each selected literal was introduced before
the step that selects it. -/
theorem selections_step_lt {rules : List Clause} {level : Nat} {node : PathNode}
    {rest : List PathNode} {mgu σ : Substitution} (h : Chain rules level (node :: rest) mgu σ)
    (hle : ∀ x ∈ hist node.resolvent, x.1 ≤ level) :
    ∀ x ∈ selections level (node :: rest), x.1.1 < x.2 := by
  generalize hnodes : node :: rest = nodes at h
  induction h generalizing node rest with
  | last hnil =>
      cases hnodes
      simp [selections]
  | @step level node next rest' mgu mgu' σ' hne hedge hrest ih =>
      cases hnodes
      obtain ⟨l, clause, hl, hed, hg⟩ := hedge
      have hlle : l.introduction ≤ level :=
        hle _ (List.mem_map_of_mem _ (List.mem_iff_getElem?.mpr ⟨_, hl⟩))
      have hnext : ∀ x ∈ hist next.resolvent, x.1 ≤ level + 1 := by
        intro x hx
        rw [hg, hist_resolve] at hx
        rcases List.mem_append.mp hx with hx | hx
        · exact Nat.le_succ_of_le (hle x (List.mem_of_mem_eraseIdx hx))
        · obtain ⟨_, -, rfl⟩ := List.mem_map.mp hx; exact le_refl _
      simp only [selections, hl, List.mem_cons]
      rintro x (rfl | hx)
      · exact Nat.lt_succ_of_le hlle
      · exact ih hnext rfl x hx

/-- **Along a path of `sld`'s tree**, the literals introduced at step `k` are
selected once each, with body indices `0, …, n_k - 1`, at steps after `k`. -/
theorem chain_selections {rules : List Clause} {goal : List Literal} {root : PathNode}
    {rest : List PathNode} {mgu σ : Substitution} (h : Chain rules 0 (root :: rest) mgu σ)
    (hroot : root.resolvent = queryGoal goal) (hquery : root.applied = .query) {k : Nat}
    {node : PathNode} (hk : (root :: rest)[k]? = some node) :
    (((selections 0 (root :: rest)).filter (·.1.1 = k)).map (·.1.2)).Perm
        (List.range (introducedCount rules goal.length node.applied)) ∧
      ∀ x ∈ selections 0 (root :: rest), x.1.1 = k → k < x.2 := by
  have hhist : hist root.resolvent = (List.range goal.length).map (0, ·) := by
    rw [hroot, queryGoal, hist_mapIdx]
  refine ⟨?_, fun x hx hxk => hxk ▸ selections_step_lt h (by simp [hhist]) x hx⟩
  have hperm := ((selections_perm h).filter (·.1 = k)).map (·.2)
  rw [List.filter_map, List.map_map, List.filter_append, List.map_append, hhist] at hperm
  refine hperm.trans ?_
  cases k with
  | zero =>
      obtain rfl : root = node := by simpa using hk
      have hnone : (introduced rules 0 (root :: rest)).filter (·.1 = 0) = [] :=
        List.filter_eq_nil_iff.mpr fun x hx => by simpa using Nat.ne_of_gt (introduced_fst x hx)
      simp [hnone, hquery, introducedCount, List.filter_map, Function.comp_def]
  | succ j =>
      have hintro := @introduced_filter rules 0 (root :: rest) j
      rw [Nat.zero_add] at hintro
      have hmem : node ∈ rest := List.mem_iff_getElem?.mpr ⟨j, by simpa using hk⟩
      obtain ⟨_, _, _, _, hedge⟩ := h.edge_of_mem node hmem
      simp [hintro, hk, introducedCount_of_ne_query hedge.ne_query, List.filter_map,
        Function.comp_def]

/-! ## The reconstruction succeeds -/

/-- **The loop of `proof_for_level`** over the steps of a chain records, for each
literal introduced at `k`, its body index against the step that selects it. -/
theorem sublevelsLoop_chain {rules : List Clause} {path : List PathNode} {k : Nat}
    {j : Nat} {node : PathNode} {rest : List PathNode} {mgu σ : Substitution}
    (h : Chain rules j (node :: rest) mgu σ) (hdrop : path.drop j = node :: rest)
    (m : List (Nat × Nat)) :
    sublevelsLoop path k (List.range' j (rest.length + 1)) m =
      .ok ((((selections j (node :: rest)).filter (·.1.1 = k)).map fun x => (x.1.2, x.2)).foldl
        (fun m x => insertKey m x.1 x.2) m) := by
  generalize hnodes : node :: rest = nodes at h
  induction h generalizing node rest m with
  | @last j node mgu hnil =>
      cases hnodes
      have hj : path[j]? = some node := by rw [← Nat.add_zero j, ← List.getElem?_drop, hdrop]; rfl
      simp [sublevelsLoop, index_of_getElem? hj, hnil, selections]
  | @step j node next rest' mgu mgu' σ' hne hedge hrest ih =>
      cases hnodes
      obtain ⟨l, clause, hl, -, -⟩ := hedge
      have hj : path[j]? = some node := by rw [← Nat.add_zero j, ← List.getElem?_drop, hdrop]; rfl
      have hj1 : path[j + 1]? = some next := by rw [← List.getElem?_drop, hdrop]; simp
      have hdrop' : path.drop (j + 1) = next :: rest' := by
        rw [← List.drop_drop, hdrop]; rfl
      rw [List.length_cons, List.range'_succ, sublevelsLoop.eq_2]
      simp only [index_of_getElem? hj, index_of_getElem? hj1, index_of_getElem? hl, ok_bind,
        List.isEmpty_iff, hne, if_false, selections, hl]
      by_cases hk : l.introduction = k
      · simp [hk, ih hdrop' _ rfl]
      · simp [hk, ih hdrop' _ rfl]

/-- Inserting keys not yet in the map appends them. -/
theorem foldl_insertKey {xs m : List (Nat × Nat)} (hnodup : (xs.map (·.1)).Nodup)
    (hfresh : ∀ x ∈ xs, ∀ e ∈ m, e.1 ≠ x.1) :
    xs.foldl (fun m x => insertKey m x.1 x.2) m = m ++ xs := by
  induction xs generalizing m with
  | nil => simp
  | cons x xs ih =>
      simp only [List.map_cons, List.nodup_cons, List.mem_map] at hnodup
      have hany : (m.any fun e => e.1 == x.1) = false :=
        List.any_eq_false.mpr fun e he => by simpa using hfresh x (.head _) e he
      have hnew : insertKey m x.1 x.2 = m ++ [x] := by simp [insertKey, hany]
      rw [List.foldl_cons, hnew, ih hnodup.2]
      · simp
      · intro y hy e he
        rcases List.mem_append.mp he with he | he
        · exact hfresh y (.tail _ hy) e he
        · rw [List.mem_singleton.mp he]
          exact fun hxy => hnodup.1 ⟨y, hy, hxy.symm⟩

/-- The assertion loop of `proof_for_level` passes when every key is in bounds. -/
theorem forIn_assertTrue {xs : List Nat} {n : Nat} (h : ∀ k ∈ xs, k < n) :
    (forIn xs PUnit.unit fun k _ => do
      assertTrue (decide (k < n))
      pure (ForInStep.yield PUnit.unit) : Except String PUnit) = .ok PUnit.unit := by
  induction xs with
  | nil => rfl
  | cons k xs ih =>
      simp only [List.forIn_cons, assertTrue, decide_eq_true (h k (.head _)), if_true, ok_bind]
      exact ih fun k hk => h k (.tail _ hk)

/-- `mapM` in `Except` succeeds when every call does. -/
theorem mapM_ok {α β ε : Type} {f : α → Except ε β} {Q : β → Prop} :
    ∀ {xs : List α}, (∀ x ∈ xs, ∃ y, f x = .ok y ∧ Q y) → ∃ ys, xs.mapM f = .ok ys ∧ ∀ y ∈ ys, Q y
  | [], _ => ⟨[], rfl, by simp⟩
  | x :: xs, h => by
      obtain ⟨y, hy, hq⟩ := h x (.head _)
      obtain ⟨ys, hys, hqs⟩ := mapM_ok fun z hz => h z (.tail _ hz)
      refine ⟨y :: ys, by rw [List.mapM_cons, hy, hys]; rfl, ?_⟩
      simpa [hq] using hqs

/-- A key of the map has an entry, and `get(..).unwrap()` returns its value. -/
theorem getUnwrap_ok {m : List (Nat × Nat)} {i : Nat} (h : i ∈ m.map (·.1)) :
    ∃ x ∈ m, getUnwrap m i = .ok x.2 := by
  have hsome : (m.find? (·.1 == i)).isSome := List.find?_isSome.mpr (by simpa using h)
  obtain ⟨x, hx⟩ := Option.isSome_iff_exists.mp hsome
  exact ⟨x, List.mem_of_find?_eq_some hx, by simp [getUnwrap, hx]⟩

/-- The assertion on the number of children holds for `n_k` children, when a rule
the step names is in the program. -/
theorem childrenAssertion_introducedCount {path : List PathNode} {rules : List Clause}
    {root : PathNode} {cid : ClauseId} (hroot : path[0]? = some root)
    (hrule : ∀ rid, cid = .rule rid → ∃ c, rules[rid]? = some c) :
    childrenAssertion path rules (introducedCount rules root.resolvent.length cid) cid = .ok () := by
  cases cid with
  | query => simp [childrenAssertion, introducedCount, index_of_getElem? hroot, assertTrue]
  | rule rid =>
      obtain ⟨c, hc⟩ := hrule rid rfl
      simp [childrenAssertion, introducedCount, bodyCount, index_of_getElem? hc, hc, assertTrue]
  | builtin => simp [childrenAssertion, introducedCount, assertTrue]

/-- What `proof_for_level` needs of a path: at each step `k`, the loop over the
path finds `n_k` children, keyed by the body indices `0, …, n_k - 1` and at steps
after `k`, and the assertion on the number of children holds. -/
structure Reconstructible (rules : List Clause) (queryLength : Nat) (path : List PathNode) :
    Prop where
  children : ∀ (k : Nat) (node : PathNode), path[k]? = some node →
    childrenAssertion path rules (introducedCount rules queryLength node.applied) node.applied =
      .ok ()
  sublevels : ∀ (k : Nat) (node : PathNode), path[k]? = some node → ∃ xs : List (Nat × Nat),
    sublevelsLoop path k (List.range path.length) [] = .ok xs ∧
    (xs.map (·.1)).Perm (List.range (introducedCount rules queryLength node.applied)) ∧
    ∀ x ∈ xs, k < x.2 ∧ x.2 < path.length

/-- **`proof_for_level` returns** on a reconstructible path, from every level, when
the fuel exceeds the number of levels above it. -/
theorem proofForLevel_ok {rules : List Clause} {q : Nat} {path : List PathNode}
    (h : Reconstructible rules q path) (mgu : Substitution) (fuel : Nat) :
    ∀ level, level < path.length → path.length - level < fuel →
      ∃ pr, proofForLevel path mgu rules fuel level = .ok pr := by
  induction fuel with
  | zero => intro level _ hfuel; omega
  | succ fuel ih =>
      intro level hlt hfuel
      have hnode : path[level]? = some path[level] := List.getElem?_eq_getElem hlt
      obtain ⟨xs, hloop, hperm, hlater⟩ := h.sublevels level _ hnode
      have hlen : xs.length = introducedCount rules q path[level].applied := by
        simpa using hperm.length_eq
      have hkeys : ∀ i, i ∈ xs.map (·.1) ↔ i < xs.length := fun i => by
        rw [hperm.mem_iff, List.mem_range, hlen]
      have hassert : childrenAssertion path rules xs.length path[level].applied = .ok () :=
        hlen ▸ h.children level _ hnode
      have hsub : ∃ ys, (List.range xs.length).mapM (getUnwrap xs) = .ok ys ∧
          ∀ y ∈ ys, level < y ∧ y < path.length :=
        mapM_ok fun i hi => by
          obtain ⟨x, hx, hget⟩ := getUnwrap_ok ((hkeys i).mpr (List.mem_range.mp hi))
          exact ⟨x.2, hget, hlater x hx⟩
      obtain ⟨ys, hys, hyl⟩ := hsub
      have hchildren : ∃ cs, ys.mapM (proofForLevel path mgu rules fuel) = .ok cs ∧
          ∀ c ∈ cs, True :=
        mapM_ok fun y hy => by
          obtain ⟨pr, hpr⟩ := ih y (hyl y hy).2 (by have := (hyl y hy).1; omega)
          exact ⟨pr, hpr, trivial⟩
      obtain ⟨cs, hcs, -⟩ := hchildren
      refine ⟨.mk path[level].applied (composeNoExtend path[level].ren mgu) cs, ?_⟩
      simp only [proofForLevel, hloop, ok_bind, index_of_getElem? hnode, hassert,
        forIn_assertTrue fun k hk => (hkeys k).mp hk, hys, hcs]
      rfl

/-! ## The paths of `sld`'s trees -/

/-- A path of the tree of `sld` is a chain that starts at the query. -/
theorem sld_path {rules : List Clause} {goal : List Literal} {maxdepth : Nat}
    {grounded : GroundnessMap} {n : Nat} {t : Tree} {n' : Nat}
    (hsld : sld rules goal maxdepth grounded n = .ok (some t, n')) {p : Path}
    (hp : p ∈ flattenCompose 0 .query [] (goalIdRenaming goal) t) :
    ∃ rest, p.1 = ⟨queryGoal goal, .query, 0, goalIdRenaming goal⟩ :: rest ∧
      Chain rules 0 p.1 [] p.2 := by
  obtain ⟨hwf, hgoal, hlevel⟩ := sld_wf hsld
  obtain ⟨hchain, hhead⟩ := flattenCompose_chain hwf hp
  rw [hlevel] at hchain
  cases hP : p.1 with
  | nil => simp [hP] at hhead
  | cons root rest =>
      simp only [hP, List.head?_cons, Option.some.injEq, hgoal] at hhead
      exact ⟨rest, hhead ▸ rfl, hP ▸ hchain⟩

/-- For a path of `sld`'s tree and one of its steps `k`, the loop of
`proof_for_level` returns the selections of the literals introduced at `k`, as
(body index, step) pairs in path order. -/
theorem chain_sublevels {rules : List Clause} {goal : List Literal} {root : PathNode}
    {rest : List PathNode} {mgu σ : Substitution} (h : Chain rules 0 (root :: rest) mgu σ)
    (hroot : root.resolvent = queryGoal goal) (hquery : root.applied = .query) {k : Nat}
    {node : PathNode} (hk : (root :: rest)[k]? = some node) :
    sublevelsLoop (root :: rest) k (List.range (root :: rest).length) [] =
      .ok (((selections 0 (root :: rest)).filter (·.1.1 = k)).map fun x => (x.1.2, x.2)) := by
  have hkeys : ((((selections 0 (root :: rest)).filter (·.1.1 = k)).map
      fun x => (x.1.2, x.2)).map (·.1)) = ((selections 0 (root :: rest)).filter (·.1.1 = k)).map
        (·.1.2) := by
    simp [List.map_map, Function.comp_def]
  rw [List.range_eq_range', List.length_cons, sublevelsLoop_chain h rfl,
    foldl_insertKey (hkeys ▸ (chain_selections h hroot hquery hk).1.nodup_iff.mpr
      (List.nodup_range _)) (by simp)]
  rfl

/-- Every path of the tree of `sld` is reconstructible. -/
theorem sld_path_reconstructible {rules : List Clause} {goal : List Literal} {maxdepth : Nat}
    {grounded : GroundnessMap} {n : Nat} {t : Tree} {n' : Nat}
    (hsld : sld rules goal maxdepth grounded n = .ok (some t, n')) {p : Path}
    (hp : p ∈ flattenCompose 0 .query [] (goalIdRenaming goal) t) :
    Reconstructible rules goal.length p.1 := by
  obtain ⟨rest, hP, hchain⟩ := sld_path hsld hp
  rw [hP] at hchain ⊢
  have hlen : (queryGoal goal).length = goal.length := by simp [queryGoal]
  constructor
  · intro k node hk
    have hroot : (⟨queryGoal goal, .query, 0, goalIdRenaming goal⟩ :: rest : List PathNode)[0]? =
        some ⟨queryGoal goal, .query, 0, goalIdRenaming goal⟩ := List.getElem?_cons_zero
    rw [← hlen]
    refine childrenAssertion_introducedCount hroot fun rid hrid => ?_
    rcases List.mem_cons.mp (List.mem_iff_getElem?.mpr ⟨k, hk⟩) with rfl | hmem
    · cases hrid
    · obtain ⟨_, _, _, _, hedge⟩ := hchain.edge_of_mem node hmem
      exact (hrid ▸ hedge).rule_mem
  · intro k node hk
    obtain ⟨hperm, hlater⟩ := chain_selections hchain rfl rfl hk
    refine ⟨_, chain_sublevels hchain rfl rfl hk, by simpa [List.map_map, Function.comp_def]
      using hperm, ?_⟩
    · intro x hx
      obtain ⟨y, hy, rfl⟩ := List.mem_map.mp hx
      obtain ⟨hy, hyk⟩ := List.mem_filter.mp hy
      exact ⟨hlater y hy (by simpa using hyk), by simpa using selections_lt y hy⟩

/-- `proof_for_level` returns on every path of the tree of `sld`. -/
theorem allProofs_ok {rules : List Clause} {goal : List Literal} {maxdepth : Nat}
    {grounded : GroundnessMap} {n : Nat} {t : Tree} {n' : Nat}
    (hsld : sld rules goal maxdepth grounded n = .ok (some t, n')) :
    ∃ prs, (flattenCompose 0 .query [] (goalIdRenaming goal) t).mapM
      (fun p => proofForLevel p.1 p.2 rules (p.1.length + 1) 0) = .ok prs := by
  have hall : ∃ prs, (flattenCompose 0 .query [] (goalIdRenaming goal) t).mapM
      (fun p => proofForLevel p.1 p.2 rules (p.1.length + 1) 0) = .ok prs ∧ ∀ pr ∈ prs, True :=
    mapM_ok fun p hp => by
      obtain ⟨rest, hP, -⟩ := sld_path hsld hp
      obtain ⟨pr, hpr⟩ := proofForLevel_ok (sld_path_reconstructible hsld hp) p.2 (p.1.length + 1) 0
        (by simp [hP]) (by omega)
      exact ⟨pr, hpr, trivial⟩
  exact hall.imp fun _ h => h.1

/-- **The reconstruction never fails.** For every tree of `sld`, `proofs` returns;
along every path, the literals introduced at step `k` are selected once each, with
body indices `0, …, n_k - 1`, at steps after `k`. -/
theorem proofs_terminate {rules : List Clause} {goal : List Literal} {maxdepth : Nat}
    {grounded : GroundnessMap} {n : Nat} {t : Tree} {n' : Nat}
    (hsld : sld rules goal maxdepth grounded n = .ok (some t, n')) :
    (∃ ps, proofs t rules goal = .ok ps) ∧
      ∀ p ∈ flattenCompose 0 .query [] (goalIdRenaming goal) t, ∀ k node, p.1[k]? = some node →
        (((selections 0 p.1).filter (·.1.1 = k)).map (·.1.2)).Perm
            (List.range (introducedCount rules goal.length node.applied)) ∧
          ∀ x ∈ selections 0 p.1, x.1.1 = k → k < x.2 := by
  refine ⟨?_, fun p hp k node hk => ?_⟩
  · obtain ⟨prs, hprs⟩ := allProofs_ok hsld
    exact ⟨dedupProofs goal prs [], by simp only [proofs, hprs, ok_bind]; rfl⟩
  · obtain ⟨rest, hP, hchain⟩ := sld_path hsld hp
    rw [hP] at hk hchain ⊢
    exact chain_selections hchain rfl rfl hk

/-- The program `p.` and the query `p`: the tree of `sld` has one path, and `proofs`
returns. -/
theorem proofs_terminate_fact :
    ∃ t n', sld [⟨⟨none, "p", []⟩, []⟩] [⟨none, "p", []⟩] 1
        (fun s => if s = ⟨"p", 0⟩ then some [] else none) 0 = .ok (some t, n') ∧
      ∃ ps, proofs t [⟨⟨none, "p", []⟩, []⟩] [⟨none, "p", []⟩] = .ok ps := by
  obtain ⟨t, n', h⟩ : ∃ t n', sld [⟨⟨none, "p", []⟩, []⟩] [⟨none, "p", []⟩] 1
      (fun s => if s = ⟨"p", 0⟩ then some [] else none) 0 = .ok (some t, n') := ⟨_, _, rfl⟩
  exact ⟨t, n', h, (proofs_terminate h).1⟩

end Modus.Sld
