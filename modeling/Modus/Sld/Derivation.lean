import Modus.Sld.Engine

/-!
# The trees `inner` builds

Every tree `inner` returns is a derivation tree of SLD resolution: each resolvent
of a node is an edge from the literal the node selected, by a builtin head or by
a renamed rule, to a subtree one level down whose goal is the resolvent. This
module states that shape once, as `Tree.WF`, and proves that `inner` only builds
such trees (`inner_wf`). The later modules reason about `Tree.WF` and never
unfold `inner` again.

`inner` also threads the fresh-id counter: a rule is renamed when the loop over
the resolvents reaches it, after the subtrees of the earlier resolvents are
built, and its own subtree is built from the counter after the renaming
(`inner_cons`).

Every key of a node's map is distinct: at most one builtin entry, and one entry per
rule. A node is kept only if some resolvent's subtree is, so every tree has a path
to the empty goal, and an answer.

## Main results

* `inner_cons` — what one call of `inner` builds, counters included.
* `inner_wf`, `sld_wf` — the trees of the engine are well formed, rooted at the
  goal and level they were asked for.
* `sld_keysNodup` — every node's resolvent map has distinct keys, so the source's
  `HashMap` overwrites no resolvent.
* `sld_solutions_ne_nil` — every tree of `sld` has an answer.
-/

namespace Modus.Sld

open Modus.Logic Modus.Builtin

/-- One edge of an SLD tree: the selected literal `lit` is resolved with the
clause `cid` names, with unifier `mgu` and renaming `ren`; `clause` is the clause
as applied (the fabricated fact for a builtin, the renamed rule for a rule). -/
inductive Edge (rules : List Clause) (lit : Literal) :
    ClauseId → Substitution → Substitution → Clause → Prop
  | builtin {p : BuiltinPredicate} {head : Literal} {mgu : Substitution}
      (hsel : selectBuiltin lit = (.«match», some p))
      (hres : p.resolvent lit = .ok (some (head, mgu))) :
      Edge rules lit (.builtin head) mgu [] ⟨head, []⟩
  | rule {rid : Nat} {c : Clause} {n : Nat} {mgu : Substitution}
      (hrid : rules[rid]? = some c)
      (hu : (c.renameWithSub n).1.1.head.unify lit = some mgu) :
      Edge rules lit (.rule rid) mgu (c.renameWithSub n).1.2 (c.renameWithSub n).1.1

/-- A tree `inner` can build. A leaf has the empty goal. Any other node has a
non-empty goal, and each resolvent is an edge from the literal at its key's index
to a well-formed subtree, one level down, whose goal is the resolvent. -/
inductive Tree.WF (rules : List Clause) : Tree → Prop
  | leaf (level : Nat) : WF rules (.mk [] level [])
  | node {goal : GoalWithHistory} {level : Nat} {rs : List Entry} (hgoal : goal ≠ [])
      (hedge : ∀ e ∈ rs, ∃ l clause, goal[e.1.1]? = some l ∧
        Edge rules l.literal e.1.2 e.2.1 e.2.2.1 clause ∧
        e.2.2.2.goal = resolve e.1.1 e.1.2 goal e.2.1 clause (level + 1) ∧
        e.2.2.2.level = level + 1)
      (hsub : ∀ e ∈ rs, WF rules e.2.2.2) :
      WF rules (.mk goal level rs)

/-- The loop over the rules never moves the counter back, when `visit` does not. -/
theorem ruleResolvents_le
    {visit : GoalWithHistory → Nat → Except Fault (Option Tree × Nat)}
    (hvisit : ∀ g a r b, visit g a = .ok (r, b) → a ≤ b)
    {lid : Nat} {l : LiteralWithHistory} {goal : GoalWithHistory} {level : Nat} :
    ∀ {rid : Nat} {cs : List Clause} {n : Nat} {es : List Entry} {n' : Nat},
    ruleResolvents visit lid l goal level rid cs n = .ok (es, n') → n ≤ n' := by
  intro rid cs
  induction cs generalizing rid with
  | nil => intro n es n' h; cases h; exact le_rfl
  | cons c rest ih =>
      intro n es n' h
      have hc := (c.renameWithSub_renamedIn n).1
      unfold ruleResolvents at h
      split at h
      · split at h
        · obtain ⟨⟨t?, n₁⟩, hv, h⟩ := bind_eq_ok.mp h
          obtain ⟨⟨es', n₂⟩, hr, h⟩ := bind_eq_ok.mp h
          have hn : n₂ = n' := congrArg Prod.snd (Except.ok.inj h)
          have := hvisit _ _ _ _ hv
          have := ih hr
          omega
        · have := ih h; omega
      · exact ih h

/-- An entry made by the loop over the rules: a rule of the list, renamed at a
counter between the loop's, whose head unifies with the selected literal, and the
subtree `visit` built for the resolvent from the counter after the renaming. -/
theorem ruleResolvents_mem
    {visit : GoalWithHistory → Nat → Except Fault (Option Tree × Nat)}
    (hvisit : ∀ g a r b, visit g a = .ok (r, b) → a ≤ b)
    {lid : Nat} {l : LiteralWithHistory} {goal : GoalWithHistory} {level : Nat} :
    ∀ {rid : Nat} {cs : List Clause} {n : Nat} {es : List Entry} {n' : Nat},
    ruleResolvents visit lid l goal level rid cs n = .ok (es, n') → ∀ e ∈ es,
      ∃ i c m mgu m', cs[i]? = some c ∧ (c.renameWithSub m).1.1.head.unify l.literal = some mgu ∧
        e.1 = (lid, .rule (rid + i)) ∧ e.2.1 = mgu ∧ e.2.2.1 = (c.renameWithSub m).1.2 ∧
        n ≤ m ∧ m' ≤ n' ∧
        visit (resolve lid (.rule (rid + i)) goal mgu (c.renameWithSub m).1.1 (level + 1))
          (c.renameWithSub m).2 = .ok (some e.2.2.2, m') := by
  intro rid cs
  induction cs generalizing rid with
  | nil => intro n es n' h e he; cases h; cases he
  | cons c rest ih =>
      intro n es n' h e he
      have hnext : ∀ {m₀ es'}, n ≤ m₀ →
          ruleResolvents visit lid l goal level (rid + 1) rest m₀ = .ok (es', n') →
          e ∈ es' → ∃ i c' m mgu m', (c :: rest)[i]? = some c' ∧
            (c'.renameWithSub m).1.1.head.unify l.literal = some mgu ∧
            e.1 = (lid, .rule (rid + i)) ∧ e.2.1 = mgu ∧ e.2.2.1 = (c'.renameWithSub m).1.2 ∧
            n ≤ m ∧ m' ≤ n' ∧
            visit (resolve lid (.rule (rid + i)) goal mgu (c'.renameWithSub m).1.1 (level + 1))
              (c'.renameWithSub m).2 = .ok (some e.2.2.2, m') := fun hm₀ hr hm => by
        obtain ⟨i, c', m, mgu, m', hi, hu, he1, he2, he3, hm, hm', hv⟩ := ih hr e hm
        exact ⟨i + 1, c', m, mgu, m', by simpa using hi, hu,
          by simpa [Nat.add_assoc, Nat.add_comm 1 i] using he1, he2, he3, by omega, hm',
          by simpa [Nat.add_assoc, Nat.add_comm 1 i] using hv⟩
      have hc := (c.renameWithSub_renamedIn n).1
      unfold ruleResolvents at h
      split at h
      · split at h
        · rename_i mgu hu
          obtain ⟨⟨t?, n₁⟩, hv, h⟩ := bind_eq_ok.mp h
          obtain ⟨⟨es', n₂⟩, hr, h⟩ := bind_eq_ok.mp h
          have hn₁ := hvisit _ _ _ _ hv
          cases t? with
          | none => cases h; exact hnext (by omega) hr he
          | some t =>
              cases h
              rcases List.mem_cons.mp he with rfl | hm
              · exact ⟨0, c, n, mgu, n₁, by simp, hu, rfl, rfl, rfl, le_rfl,
                  ruleResolvents_le hvisit hr, hv⟩
              · exact hnext (by omega) hr hm
        · exact hnext hc h he
      · exact hnext le_rfl h he

/-- The builtin resolvent, when there is one, is a builtin edge from the selected
literal, which renames nothing. -/
theorem builtinResolve_some (rules : List Clause) {lid : Nat} {l : LiteralWithHistory}
    {goal : GoalWithHistory} {level : Nat} {cid : ClauseId} {mgu ren : Substitution}
    {g : GoalWithHistory} (h : builtinResolve lid l goal level = .ok (some (cid, mgu, ren, g))) :
    ∃ clause, ren = [] ∧ Edge rules l.literal cid mgu ren clause ∧
      g = resolve lid cid goal mgu clause (level + 1) := by
  unfold builtinResolve at h
  split at h
  · rename_i p hsel
    split at h
    · cases h
    · cases h
    · rename_i head mgu' hres
      cases h
      exact ⟨_, rfl, .builtin hsel hres, rfl⟩
  · cases h

/-- The builtin part never moves the counter back, when `visit` does not. -/
theorem builtinResolvents_le
    {visit : GoalWithHistory → Nat → Except Fault (Option Tree × Nat)}
    (hvisit : ∀ g a r b, visit g a = .ok (r, b) → a ≤ b)
    {lid : Nat} {l : LiteralWithHistory} {goal : GoalWithHistory} {level : Nat} {n : Nat}
    {es : List Entry} {n' : Nat} (h : builtinResolvents visit lid l goal level n = .ok (es, n')) :
    n ≤ n' := by
  obtain ⟨b, -, h⟩ := bind_eq_ok.mp h
  rcases b with _ | ⟨cid, mgu, ren, g⟩
  · cases h; exact le_rfl
  · obtain ⟨⟨t?, n₁⟩, hv, h⟩ := bind_eq_ok.mp h
    have hn : n₁ = n' := congrArg Prod.snd (Except.ok.inj h)
    exact hn ▸ hvisit _ _ _ _ hv

/-- An entry made from the builtin resolvent: a builtin edge from the selected
literal, renaming nothing, and the subtree `visit` built for the resolvent. -/
theorem builtinResolvents_mem
    {visit : GoalWithHistory → Nat → Except Fault (Option Tree × Nat)}
    {lid : Nat} {l : LiteralWithHistory} {goal : GoalWithHistory} {level : Nat} {n : Nat}
    {es : List Entry} {n' : Nat} {rules : List Clause}
    (h : builtinResolvents visit lid l goal level n = .ok (es, n')) :
    ∀ e ∈ es, ∃ clause, e.1.1 = lid ∧ e.2.2.1 = [] ∧ Edge rules l.literal e.1.2 e.2.1 e.2.2.1 clause ∧
      visit (resolve lid e.1.2 goal e.2.1 clause (level + 1)) n = .ok (some e.2.2.2, n') := by
  intro e he
  obtain ⟨b, hb, h⟩ := bind_eq_ok.mp h
  rcases b with _ | ⟨cid, mgu, ren, g⟩
  · cases h; cases he
  · obtain ⟨⟨t?, n₁⟩, hv, h⟩ := bind_eq_ok.mp h
    obtain ⟨clause, rfl, hedge, rfl⟩ := builtinResolve_some rules hb
    rcases t? with _ | t
    · cases h; cases he
    · cases h
      rw [List.mem_singleton.mp he]
      exact ⟨clause, rfl, rfl, hedge, hv⟩

/-- `inner` never moves the counter back. -/
theorem inner_le {rules : List Clause} {grounded : GroundnessMap} (fuel : Nat) :
    ∀ {goal : GoalWithHistory} {level n : Nat} {r : Option Tree} {n' : Nat},
    inner rules grounded fuel goal level n = .ok (r, n') → n ≤ n' := by
  induction fuel with
  | zero =>
      intro goal level n r n' h
      unfold inner at h
      split at h <;> (cases h; exact le_rfl)
  | succ fuel ih =>
      intro goal level n r n' h
      simp only [inner] at h
      split at h
      · cases h; exact le_rfl
      obtain ⟨sel, -, h⟩ := bind_eq_ok.mp h
      rcases sel with _ | ⟨lid, l⟩
      · cases h; exact le_rfl
      obtain ⟨⟨bs, n₁⟩, hbs, h⟩ := bind_eq_ok.mp h
      obtain ⟨⟨us, n₂⟩, hus, h⟩ := bind_eq_ok.mp h
      have h₁ := builtinResolvents_le (fun _ _ _ _ => ih) hbs
      have h₂ := ruleResolvents_le (fun _ _ _ _ => ih) hus
      split at h <;> (cases h; omega)

theorem inner_nil_eq {rules : List Clause} {grounded : GroundnessMap} {fuel level n : Nat}
    {t : Tree} {n' : Nat} (h : inner rules grounded fuel [] level n = .ok (some t, n')) :
    t = .mk [] level [] ∧ n' = n := by
  rw [inner_nil] at h; cases h; exact ⟨rfl, rfl⟩

/-- **One call of `inner`** on a non-empty goal, with fuel left, builds a node at
its goal and level for the literal `select` picks, at some `lid`, with at least one
entry in its map. Each entry is an edge from that literal, and its subtree is the
recursive call on the resolvent, one level down: from a counter `b`, after the
entry's renaming drew its ids in `[a, b)`, with `a` no earlier than the call's
counter, and ending no later than the call. -/
theorem inner_cons {rules : List Clause} {grounded : GroundnessMap} {fuel level n n' : Nat}
    {goal : GoalWithHistory} {t : Tree}
    (h : inner rules grounded (fuel + 1) goal level n = .ok (some t, n')) (hgoal : goal ≠ []) :
    ∃ lid l rs, select grounded goal = .ok (some (lid, l)) ∧ t = .mk goal level rs ∧ rs ≠ [] ∧
      ∀ e ∈ rs, ∃ clause a b m',
        e.1.1 = lid ∧ Edge rules l.literal e.1.2 e.2.1 e.2.2.1 clause ∧ n ≤ a ∧ a ≤ b ∧ m' ≤ n' ∧
        (∀ kv ∈ e.2.2.1, kv.2.RenamedIn a b) ∧
        inner rules grounded fuel (resolve lid e.1.2 goal e.2.1 clause (level + 1)) (level + 1) b =
          .ok (some e.2.2.2, m') := by
  have hvisit : ∀ g a r b, inner rules grounded fuel g (level + 1) a = .ok (r, b) → a ≤ b :=
    fun _ _ _ _ => inner_le fuel
  simp only [inner, List.isEmpty_iff, hgoal, if_false] at h
  obtain ⟨sel, hsel, h⟩ := bind_eq_ok.mp h
  rcases sel with _ | ⟨lid, l⟩
  · cases h
  obtain ⟨⟨bs, n₁⟩, hbs, h⟩ := bind_eq_ok.mp h
  obtain ⟨⟨us, n₂⟩, hus, h⟩ := bind_eq_ok.mp h
  split at h
  · cases h
  rename_i hne
  cases h
  refine ⟨lid, l, bs ++ us, hsel, rfl, fun he => hne (by rw [he]; rfl), fun e he => ?_⟩
  have hn₁ := builtinResolvents_le hvisit hbs
  rcases List.mem_append.mp he with hb | hu
  · obtain ⟨clause, hlid, hren, hedge, hv⟩ := builtinResolvents_mem hbs e hb
    exact ⟨clause, n, n, n₁, hlid, hedge, le_rfl, le_rfl, ruleResolvents_le hvisit hus,
      by simp [hren], hlid ▸ hv⟩
  · obtain ⟨i, c, m, mgu, m', hi, hu', he1, he2, he3, hm, hm', hv⟩ :=
      ruleResolvents_mem hvisit hus e hu
    obtain ⟨hle, hren⟩ := c.renameWithSub_renamedIn m
    refine ⟨(c.renameWithSub m).1.1, m, _, m', by rw [he1], ?_, by omega, hle, hm', he3 ▸ hren, ?_⟩
    · rw [he1, he2, he3]
      exact .rule (by simpa using hi) hu'
    · rw [he1, he2]; simpa using hv

/-- **The trees of `inner` are derivation trees**, rooted at the goal and level
`inner` was called with. -/
theorem inner_wf {rules : List Clause} {grounded : GroundnessMap} (fuel : Nat) :
    ∀ {goal : GoalWithHistory} {level : Nat} {n : Nat} {t : Tree} {n' : Nat},
    inner rules grounded fuel goal level n = .ok (some t, n') →
      t.WF rules ∧ t.goal = goal ∧ t.level = level := by
  induction fuel with
  | zero =>
      intro goal level n t n' h
      cases goal with
      | nil => obtain ⟨rfl, -⟩ := inner_nil_eq h; exact ⟨.leaf level, rfl, rfl⟩
      | cons g gs => simp [inner] at h
  | succ fuel ih =>
      intro goal level n t n' h
      cases goal with
      | nil => obtain ⟨rfl, -⟩ := inner_nil_eq h; exact ⟨.leaf level, rfl, rfl⟩
      | cons g gs =>
          obtain ⟨lid, l, rs, hsel, rfl, -, hrs⟩ := inner_cons h (List.cons_ne_nil _ _)
          have hl : (g :: gs)[lid]? = some l := by simpa using (selectFrom_some hsel).2
          refine ⟨.node (List.cons_ne_nil _ _) (fun e he => ?_) (fun e he => ?_), rfl, rfl⟩
          · obtain ⟨clause, _, _, _, hlid, hedge, -, -, -, -, hv⟩ := hrs e he
            obtain ⟨-, hg, hlv⟩ := ih hv
            exact ⟨l, clause, hlid ▸ hl, hedge, by rw [hg, hlid], hlv⟩
          · obtain ⟨_, _, _, _, -, -, -, -, -, -, hv⟩ := hrs e he
            exact (ih hv).1

/-- The tree of `sld` is a derivation tree rooted at the query. -/
theorem sld_wf {rules : List Clause} {goal : List Literal} {maxdepth : Nat}
    {grounded : GroundnessMap} {n : Nat} {t : Tree} {n' : Nat}
    (h : sld rules goal maxdepth grounded n = .ok (some t, n')) :
    t.WF rules ∧ t.goal = queryGoal goal ∧ t.level = 0 :=
  inner_wf maxdepth h

/-! ## No resolvent is overwritten -/

/-- Every node's resolvent map has distinct keys, so inserting its entries into the
source's `HashMap` overwrites none. -/
inductive Tree.KeysNodup : Tree → Prop
  | mk {goal : GoalWithHistory} {level : Nat} {rs : List Entry} (hkeys : (rs.map (·.1)).Nodup)
      (hsub : ∀ e ∈ rs, KeysNodup e.2.2.2) : KeysNodup (.mk goal level rs)

/-- The loop over the rules, from rule `rid` on, keys its entries by distinct rules,
none before `rid`. -/
theorem ruleResolvents_keys
    {visit : GoalWithHistory → Nat → Except Fault (Option Tree × Nat)}
    {lid : Nat} {l : LiteralWithHistory} {goal : GoalWithHistory} {level : Nat} :
    ∀ {rid : Nat} {cs : List Clause} {n : Nat} {es : List Entry} {n' : Nat},
    ruleResolvents visit lid l goal level rid cs n = .ok (es, n') →
      (es.map (·.1)).Nodup ∧ ∀ e ∈ es, ∃ j, rid ≤ j ∧ e.1 = (lid, .rule j) := by
  intro rid cs
  induction cs generalizing rid with
  | nil => intro n es n' h; cases h; simp
  | cons c rest ih =>
      intro n es n' h
      have hnext : ∀ {m es'}, ruleResolvents visit lid l goal level (rid + 1) rest m = .ok (es', n') →
          (es'.map (·.1)).Nodup ∧ ∀ e ∈ es', ∃ j, rid ≤ j ∧ e.1 = (lid, .rule j) := fun hr =>
        (ih hr).imp_right fun hk e he => (hk e he).imp fun _ ⟨hj, he⟩ => ⟨by omega, he⟩
      unfold ruleResolvents at h
      split at h
      · split at h
        · obtain ⟨⟨t?, n₁⟩, -, h⟩ := bind_eq_ok.mp h
          obtain ⟨⟨es', n₂⟩, hr, h⟩ := bind_eq_ok.mp h
          obtain ⟨hnd, hk⟩ := ih hr
          cases t? with
          | none => cases h; exact hnext hr
          | some t =>
              cases h
              refine ⟨List.nodup_cons.mpr ⟨fun hm => ?_, hnd⟩, fun e he => ?_⟩
              · obtain ⟨e, he, hek⟩ := List.mem_map.mp hm
                obtain ⟨j, hj, hej⟩ := hk e he
                rw [hej] at hek
                simp only [Prod.mk.injEq, ClauseId.rule.injEq, true_and] at hek
                omega
              · rcases List.mem_cons.mp he with rfl | he
                · exact ⟨rid, le_rfl, rfl⟩
                · exact (hnext hr).2 e he
        · exact hnext h
      · exact hnext h

/-- The builtin part has at most one entry, keyed by a builtin head. -/
theorem builtinResolvents_keys
    {visit : GoalWithHistory → Nat → Except Fault (Option Tree × Nat)}
    {lid : Nat} {l : LiteralWithHistory} {goal : GoalWithHistory} {level n : Nat}
    {es : List Entry} {n' : Nat} (h : builtinResolvents visit lid l goal level n = .ok (es, n')) :
    es.length ≤ 1 ∧ ∀ e ∈ es, ∃ head, e.1 = (lid, .builtin head) := by
  obtain ⟨b, hb, h⟩ := bind_eq_ok.mp h
  rcases b with _ | ⟨cid, mgu, ren, g⟩
  · cases h; simp
  · unfold builtinResolve at hb
    split at hb
    · split at hb
      · cases hb
      · cases hb
      · rename_i head _ _
        cases hb
        obtain ⟨⟨t?, n₁⟩, -, h⟩ := bind_eq_ok.mp h
        cases t? <;> cases h <;> simp
    · cases hb

/-- The map of a node `inner` builds has distinct keys: at most one builtin entry, and
one entry per rule. -/
theorem inner_keys {rules : List Clause} {grounded : GroundnessMap} {fuel level n n' : Nat}
    {goal : GoalWithHistory} {rs : List Entry}
    (h : inner rules grounded (fuel + 1) goal level n = .ok (some (.mk goal level rs), n'))
    (hgoal : goal ≠ []) : (rs.map (·.1)).Nodup := by
  simp only [inner, List.isEmpty_iff, hgoal, if_false] at h
  obtain ⟨sel, -, h⟩ := bind_eq_ok.mp h
  rcases sel with _ | ⟨lid, l⟩
  · cases h
  obtain ⟨⟨bs, n₁⟩, hbs, h⟩ := bind_eq_ok.mp h
  obtain ⟨⟨us, n₂⟩, hus, h⟩ := bind_eq_ok.mp h
  split at h
  · cases h
  cases h
  obtain ⟨hlen, hb⟩ := builtinResolvents_keys hbs
  obtain ⟨hnd, hu⟩ := ruleResolvents_keys hus
  have hbnd : (bs.map (·.1)).Nodup := by
    rcases bs with _ | ⟨_, _ | ⟨_, _⟩⟩
    · exact List.nodup_nil
    · exact List.nodup_singleton _
    · simp at hlen
  rw [List.map_append]
  refine List.Nodup.append hbnd hnd ?_
  · intro k hkb hku
    obtain ⟨e, he, rfl⟩ := List.mem_map.mp hkb
    obtain ⟨e', he', hee⟩ := List.mem_map.mp hku
    obtain ⟨head, hh⟩ := hb e he
    obtain ⟨j, -, hj⟩ := hu e' he'
    rw [hj, hh] at hee
    cases hee

/-- **No resolvent is overwritten.** Every node of every tree `inner` builds has a
resolvent map with distinct keys. -/
theorem inner_keysNodup {rules : List Clause} {grounded : GroundnessMap} (fuel : Nat) :
    ∀ {goal : GoalWithHistory} {level : Nat} {n : Nat} {t : Tree} {n' : Nat},
    inner rules grounded fuel goal level n = .ok (some t, n') → t.KeysNodup := by
  induction fuel with
  | zero =>
      intro goal level n t n' h
      cases goal with
      | nil => obtain ⟨rfl, -⟩ := inner_nil_eq h; exact .mk List.nodup_nil nofun
      | cons g gs => simp [inner] at h
  | succ fuel ih =>
      intro goal level n t n' h
      cases goal with
      | nil => obtain ⟨rfl, -⟩ := inner_nil_eq h; exact .mk List.nodup_nil nofun
      | cons g gs =>
          obtain ⟨lid, l, rs, -, rfl, -, hrs⟩ := inner_cons h (List.cons_ne_nil _ _)
          refine .mk (inner_keys h (List.cons_ne_nil _ _)) fun e he => ?_
          obtain ⟨_, _, _, _, -, -, -, -, -, -, hv⟩ := hrs e he
          exact ih hv

/-- **The trees of `sld` overwrite no resolvent.** In every node of a tree `sld`
returns, the resolvent map has distinct keys: at most one entry for the builtin, and
one for each rule. Inserting them into the source's `HashMap` loses none. -/
theorem sld_keysNodup {rules : List Clause} {goal : List Literal} {maxdepth : Nat}
    {grounded : GroundnessMap} {n : Nat} {t : Tree} {n' : Nat}
    (h : sld rules goal maxdepth grounded n = .ok (some t, n')) : t.KeysNodup :=
  inner_keysNodup maxdepth h

/-- Two facts for one literal, `p("a"). p("b").`, queried at `p(X)`: the root's map has
an entry for each rule. -/
theorem sld_keysNodup_two_facts :
    let rules : List Clause := [⟨⟨none, "p", [.constant "a"]⟩, []⟩, ⟨⟨none, "p", [.constant "b"]⟩, []⟩]
    ∃ t n', sld rules [⟨none, "p", [.userVariable "X"]⟩] 1 (fun _ => some [true]) 0 =
      .ok (some t, n') ∧ t.resolvents.length = 2 ∧ t.KeysNodup := by
  intro rules
  obtain ⟨t, n', h, hlen⟩ : ∃ t n', sld rules [⟨none, "p", [.userVariable "X"]⟩] 1
      (fun _ => some [true]) 0 = .ok (some t, n') ∧ t.resolvents.length = 2 :=
    ⟨_, _, by rfl, by rfl⟩
  exact ⟨t, n', h, hlen, sld_keysNodup h⟩

/-! ## Every tree has an answer -/

/-- `inner` keeps a subtree only if it has a resolvent, so every tree it builds has a
root-to-leaf path. -/
theorem inner_solutions_ne_nil {rules : List Clause} {grounded : GroundnessMap} (fuel : Nat) :
    ∀ {goal : GoalWithHistory} {level : Nat} {n : Nat} {t : Tree} {n' : Nat},
    inner rules grounded fuel goal level n = .ok (some t, n') → solutionsInner t ≠ [] := by
  induction fuel with
  | zero =>
      intro goal level n t n' h
      cases goal with
      | nil => obtain ⟨rfl, -⟩ := inner_nil_eq h; simp [solutionsInner]
      | cons g gs => simp [inner] at h
  | succ fuel ih =>
      intro goal level n t n' h
      cases goal with
      | nil => obtain ⟨rfl, -⟩ := inner_nil_eq h; simp [solutionsInner]
      | cons g gs =>
          obtain ⟨lid, l, rs, -, rfl, hne, hrs⟩ := inner_cons h (List.cons_ne_nil _ _)
          obtain ⟨⟨key, mgu, ren, t'⟩, rs', rfl⟩ := List.exists_cons_of_ne_nil hne
          obtain ⟨_, _, _, _, -, -, -, -, -, -, hv⟩ := hrs _ (List.mem_cons_self _ _)
          simp [solutionsInner, solutionsAll, ih hv]

/-- **A tree of `sld` has an answer.** `sld` returns a tree only when some path of it
reaches the empty goal, so `solutions` of the tree is never empty. -/
theorem sld_solutions_ne_nil {rules : List Clause} {goal : List Literal} {maxdepth : Nat}
    {grounded : GroundnessMap} {n : Nat} {t : Tree} {n' : Nat}
    (h : sld rules goal maxdepth grounded n = .ok (some t, n')) : solutions t ≠ [] := by
  simpa [solutions] using inner_solutions_ne_nil maxdepth h

/-- The query `q(Y)` of `q(X) :- p(X). p("a").` has a tree, and the tree an answer. -/
theorem sld_solutions_ne_nil_chain :
    let rules : List Clause :=
      [⟨⟨none, "q", [.userVariable "X"]⟩, [⟨none, "p", [.userVariable "X"]⟩]⟩,
        ⟨⟨none, "p", [.constant "a"]⟩, []⟩]
    ∃ t n', sld rules [⟨none, "q", [.userVariable "Y"]⟩] 3 (fun _ => some [true]) 0 =
      .ok (some t, n') ∧ solutions t ≠ [] := by
  intro rules
  obtain ⟨t, n', h⟩ : ∃ t n', sld rules [⟨none, "q", [.userVariable "Y"]⟩] 3
      (fun _ => some [true]) 0 = .ok (some t, n') := ⟨_, _, by rfl⟩
  exact ⟨t, n', h, sld_solutions_ne_nil h⟩

end Modus.Sld
