import Modus.Builtin

/-!
# The SLD engine

`sld.rs`: the goal carries, for each literal, the tree level that introduced it
and the clause and body index it came from. `inner` selects the leftmost
admissible literal, resolves it against the builtin that accepts it and against
every rule with the same signature (renamed apart first), and recurses with the
level one higher, up to the depth bound. The children that succeed are kept in
the node's resolvent map; a node none of whose children succeeds is `None`.

The fresh-id counter is threaded through the search in the order the source
draws from it: a rule is renamed when the loop over resolvents reaches it, after
the subtrees of all earlier resolvents have been built.

Two kinds of failure leave `inner`: the `unknown predicate` diagnostic, and a
panic (an `unwrap` on a literal without a position, or an index past the end of
a literal's arguments in a builtin's `apply`). Both abort the enclosing
computation, so both are the error of one `Except`, `Fault`.

The groundness map is what `wellformed::check_grounded_variables(rules)` returns;
`wellformed.rs` is not among the sources, so the map is a parameter of `sld`.

## Main results

* `selectFrom_some` — `select` returns an index of the goal and the literal there.
* `inner_nil` — an empty goal is a leaf, whatever the fuel.
-/

namespace Modus.Sld

open Modus.Logic Modus.Builtin

/-! ## Data -/

/-- `ClauseId`: a rule by its index, the query, or a builtin by the head it fabricated. -/
inductive ClauseId where
  | rule (rid : Nat)
  | query
  | builtin (head : Literal)
  deriving DecidableEq, Repr

/-- `LiteralOrigin`: the clause a literal came from and its index in that body. -/
structure LiteralOrigin where
  clause : ClauseId
  bodyIndex : Nat
  deriving DecidableEq, Repr

/-- `LiteralWithHistory`: a literal, the level that introduced it, and its origin. -/
structure LiteralWithHistory where
  literal : Literal
  introduction : Nat
  origin : LiteralOrigin
  deriving DecidableEq, Repr

/-- `GoalWithHistory`. -/
abbrev GoalWithHistory := List LiteralWithHistory

/-- `Tree`: a goal, a level, and the resolvent map from (selected literal, applied
clause) to (mgu, renaming, subtree). The `HashMap` is a list in insertion order;
its keys are distinct, since one node selects one literal and names each clause once. -/
inductive Tree where
  | mk (goal : GoalWithHistory) (level : Nat)
      (resolvents : List ((Nat × ClauseId) × Substitution × Substitution × Tree))

namespace Tree

/-- The goal of the root. -/
def goal : Tree → GoalWithHistory
  | mk goal _ _ => goal

/-- The level of the root. -/
def level : Tree → Nat
  | mk _ level _ => level

/-- The resolvent map of the root. -/
def resolvents : Tree → List ((Nat × ClauseId) × Substitution × Substitution × Tree)
  | mk _ _ rs => rs

end Tree

/-- The diagnostic `select` reports: its message and the byte range of its primary label. -/
structure Diagnostic where
  message : String
  label : Nat × Nat
  deriving DecidableEq, Repr

/-- Why `inner` stops early: the diagnostic it returns, or a panic. -/
inductive Fault where
  | diagnostic (d : Diagnostic)
  | panic (msg : String)
  deriving DecidableEq, Repr

/-- The groundness map: for a user predicate's signature, one flag per argument,
`true` where a variable is allowed. -/
abbrev GroundnessMap := Signature → Option (List Bool)

/-! ## Selection -/

/-- The diagnostic for a literal whose predicate is unknown, at its position. -/
def unknownPredicate (pos : SpannedPosition) : Diagnostic :=
  ⟨"unknown predicate", (pos.offset, pos.offset + pos.length)⟩

/-- The loop of `select` from goal index `id` on. A literal some builtin accepts is
selected; so is a literal the groundness map allows. A literal the map knows but
does not allow, or a builtin's literal no mode accepts, is skipped; any other is
an unknown predicate, and the label's `position.unwrap()` panics without a position. -/
def selectFrom (grounded : GroundnessMap) :
    Nat → GoalWithHistory → Except Fault (Option (Nat × LiteralWithHistory))
  | _, [] => .ok none
  | id, lit :: rest =>
      if (selectBuiltin lit.literal).1 = .«match» then .ok (some (id, lit))
      else match grounded lit.literal.signature with
        | some litGrounded =>
            if (lit.literal.args.zip litGrounded).all fun (t, allowed) => allowed || t.isGround
            then .ok (some (id, lit))
            else selectFrom grounded (id + 1) rest
        | none =>
            if (selectBuiltin lit.literal).1 = .groundnessMismatch then
              selectFrom grounded (id + 1) rest
            else match lit.literal.position with
              | some pos => .error (.diagnostic (unknownPredicate pos))
              | none => .error (.panic "called `Option::unwrap()` on a `None` value")

/-- `select`: the leftmost admissible literal of the goal, with its index. -/
def select (grounded : GroundnessMap) (goal : GoalWithHistory) :
    Except Fault (Option (Nat × LiteralWithHistory)) :=
  selectFrom grounded 0 goal

/-! ## Resolution -/

/-- `Substitute for GoalWithHistory`: the literals change, their history does not. -/
def substituteGoal (g : GoalWithHistory) (s : Substitution) : GoalWithHistory :=
  g.map fun lh => { lh with literal := lh.literal.substitute s }

/-- `resolve`: remove the selected literal, append the clause body with its history
(introduced at `level`, from `rid` at each body index), and apply the mgu. -/
def resolve (lid : Nat) (rid : ClauseId) (goal : GoalWithHistory) (mgu : Substitution)
    (rule : Clause) (level : Nat) : GoalWithHistory :=
  substituteGoal (goal.eraseIdx lid ++ rule.body.mapIdx fun id l => ⟨l, level, ⟨rid, id⟩⟩) mgu

/-- One entry of a resolvent map. -/
abbrev Entry := (Nat × ClauseId) × Substitution × Substitution × Tree

/-- The builtin resolvent of `inner` for the selected literal `l` at `lid`: the head
`apply` fabricates, unified with `l`, resolved as a fact. `apply` may panic. -/
def builtinResolve (lid : Nat) (l : LiteralWithHistory) (goal : GoalWithHistory) (level : Nat) :
    Except Fault (Option (ClauseId × Substitution × Substitution × GoalWithHistory)) :=
  match (selectBuiltin l.literal) with
  | (.«match», some p) =>
      match p.resolvent l.literal with
      | .error msg => .error (.panic msg)
      | .ok none => .ok none
      | .ok (some (head, mgu)) =>
          .ok (some (.builtin head, mgu, [], resolve lid (.builtin head) goal mgu ⟨head, []⟩ (level + 1)))
  | _ => .ok none

/-- The builtin part of the resolvent map: the builtin resolvent, if any, with its
subtree built by `visit`, kept if it is not `None`. -/
def builtinResolvents (visit : GoalWithHistory → Nat → Except Fault (Option Tree × Nat))
    (lid : Nat) (l : LiteralWithHistory) (goal : GoalWithHistory) (level : Nat) (n : Nat) :
    Except Fault (List Entry × Nat) := do
  match ← builtinResolve lid l goal level with
  | some (cid, mgu, ren, g) =>
      let (t?, n₁) ← visit g n
      pure (match t? with
        | some t => [((lid, cid), mgu, ren, t)]
        | none => [], n₁)
  | none => pure ([], n)

/-- The loop of `inner` over the user rules, from rule `rid` on. A rule whose head
has the literal's signature is renamed (drawing fresh ids) and unified with the
literal; on success its subtree is built by `visit` before the next rule is renamed,
and kept if it is not `None`. -/
def ruleResolvents (visit : GoalWithHistory → Nat → Except Fault (Option Tree × Nat))
    (lid : Nat) (l : LiteralWithHistory) (goal : GoalWithHistory) (level : Nat) :
    Nat → List Clause → Nat → Except Fault (List Entry × Nat)
  | _, [], n => .ok ([], n)
  | rid, c :: rest, n =>
      if c.head.signature = l.literal.signature then
        match (c.renameWithSub n).1.1.head.unify l.literal with
        | some mgu => do
            let (t?, n₁) ← visit (resolve lid (.rule rid) goal mgu (c.renameWithSub n).1.1 (level + 1))
              (c.renameWithSub n).2
            let (es, n₂) ← ruleResolvents visit lid l goal level (rid + 1) rest n₁
            pure (match t? with
              | some t => ((lid, .rule rid), mgu, (c.renameWithSub n).1.2, t) :: es
              | none => es, n₂)
        | none => ruleResolvents visit lid l goal level (rid + 1) rest (c.renameWithSub n).2
      else ruleResolvents visit lid l goal level (rid + 1) rest n

/-- `inner`. `fuel` is `maxdepth - level`, so the source's test `level >= maxdepth`
is `fuel = 0`. The builtin resolvent, if any, comes first in the map; each child
is built by the recursive call one level down. -/
def inner (rules : List Clause) (grounded : GroundnessMap) :
    Nat → GoalWithHistory → Nat → Nat → Except Fault (Option Tree × Nat)
  | fuel, goal, level, n =>
      if goal.isEmpty then .ok (some (.mk goal level []), n)
      else match fuel with
        | 0 => .ok (none, n)
        | fuel + 1 => do
            let some (lid, l) ← select grounded goal | pure (none, n)
            let (bs, n₁) ← builtinResolvents (fun g m => inner rules grounded fuel g (level + 1) m)
              lid l goal level n
            let (us, n₂) ← ruleResolvents (fun g m => inner rules grounded fuel g (level + 1) m)
              lid l goal level 0 rules n₁
            if (bs ++ us).isEmpty then pure (none, n₂) else pure (some (.mk goal level (bs ++ us)), n₂)

/-- The query as a goal with history: each literal introduced at level `0`, from
the query, at its own index. -/
def queryGoal (goal : List Literal) : GoalWithHistory :=
  goal.mapIdx fun id l => ⟨l, 0, ⟨.query, id⟩⟩

/-- `sld(rules, goal, maxdepth)` with the groundness map `grounded`, starting from
counter `n`; also returns the counter afterwards. -/
def sld (rules : List Clause) (goal : List Literal) (maxdepth : Nat) (grounded : GroundnessMap)
    (n : Nat) : Except Fault (Option Tree × Nat) :=
  inner rules grounded maxdepth (queryGoal goal) 0 n

/-- A query literal of an unknown predicate built without a position, as `main.rs`
builds query literals: `select` unwraps the missing position and panics. -/
theorem sld_unknown_predicate_panics :
    sld [] [⟨none, "foo", []⟩] 10 (fun _ => none) 0 =
      .error (.panic "called `Option::unwrap()` on a `None` value") := rfl

/-! ## Basic facts -/

@[simp] theorem mapIdx_literal (body : List Literal) (level : Nat) (rid : ClauseId) :
    (body.mapIdx fun id l => (⟨l, level, ⟨rid, id⟩⟩ : LiteralWithHistory)).map (·.literal) =
      body := by
  refine List.ext_getElem? fun i => ?_
  simp only [List.getElem?_map, List.getElem?_mapIdx]
  cases body[i]? <;> rfl

@[simp] theorem queryGoal_literal (goal : List Literal) : (queryGoal goal).map (·.literal) = goal :=
  mapIdx_literal goal 0 .query

/-- The literals of a resolvent: those of the goal but the selected one, then the
clause body, under the mgu. -/
theorem literals_resolve (lid : Nat) (rid : ClauseId) (goal : GoalWithHistory)
    (mgu : Substitution) (rule : Clause) (level : Nat) :
    (resolve lid rid goal mgu rule level).map (·.literal) =
      ((goal.eraseIdx lid).map (·.literal) ++ rule.body).map (·.substitute mgu) := by
  have hbody := congrArg (List.map (·.substitute mgu)) (mapIdx_literal rule.body level rid)
  rw [List.map_map] at hbody
  rw [resolve, substituteGoal, List.map_map, List.map_append, List.map_append, ← hbody,
    List.map_map]
  rfl

/-- `select` returns an index of the goal and the literal at that index. -/
theorem selectFrom_some {grounded : GroundnessMap} {k : Nat} {goal : GoalWithHistory}
    {id : Nat} {lit : LiteralWithHistory}
    (h : selectFrom grounded k goal = .ok (some (id, lit))) : k ≤ id ∧ goal[id - k]? = some lit := by
  induction goal generalizing k with
  | nil => cases h
  | cons l rest ih =>
      unfold selectFrom at h
      have hstep : selectFrom grounded (k + 1) rest = .ok (some (id, lit)) →
          k ≤ id ∧ (l :: rest)[id - k]? = some lit := fun hr => by
        obtain ⟨hk, hi⟩ := ih hr
        refine ⟨by omega, ?_⟩
        rw [show id - k = (id - (k + 1)) + 1 by omega]; simpa using hi
      split at h
      · cases h; simp
      · split at h
        · split at h
          · cases h; simp
          · exact hstep h
        · split at h
          · exact hstep h
          · split at h <;> cases h

@[simp] theorem inner_nil (rules : List Clause) (grounded : GroundnessMap) (fuel level : Nat)
    (n : Nat) : inner rules grounded fuel [] level n = .ok (some (.mk [] level []), n) := by
  cases fuel <;> rfl

/-! ## Answers -/

mutual
/-- The recursion of `solutions`: every root-to-leaf path's composed mgu. -/
def solutionsInner : Tree → List Substitution
  | .mk goal _ rs => if goal.isEmpty then [[]] else solutionsAll rs

/-- `solutionsInner` over a resolvent map, in its order. -/
def solutionsAll : List Entry → List Substitution
  | [] => []
  | (_, mgu, _, t) :: rs => (solutionsInner t).map (composeExtend mgu) ++ solutionsAll rs
end

theorem solutionsAll_append (rs rs' : List Entry) :
    solutionsAll (rs ++ rs') = solutionsAll rs ++ solutionsAll rs' := by
  induction rs with
  | nil => rfl
  | cons e rs ih => simp [solutionsAll, ih]

/-- `solutions`: the root goal under each path's substitution. The `HashSet` is a
list; only membership matters. -/
def solutions (t : Tree) : List (List Literal) :=
  (solutionsInner t).map fun s => t.goal.map (·.literal.substitute s)

end Modus.Sld
