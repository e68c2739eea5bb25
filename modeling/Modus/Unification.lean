import Modus.Logic

/-!
# Substitutions and unification

`unification.rs` is not among the sources; `sld.rs` imports `Substitution`,
`compose_extend`, `compose_no_extend`, `Substitute`, `Literal::unify` and
`Clause::rename_with_sub` from it. Everything in this module is therefore
modelled from the spec (§3 and §4.1), and each definition says so.

A substitution is a finite map from variables to terms, kept as an association
list whose first binding wins. Terms are flat, so applying a substitution is one
lookup per argument; composition is characterised once, by
`IRTerm.substitute_composeExtend`, and every later proof goes through that lemma
rather than through the list.

## Main results

* `IRTerm.substitute_composeExtend` — `compose_extend s₁ s₂` applies `s₁`, then `s₂`.
* `Literal.unify_sound` — the unifier makes both literals equal, position aside.
* `Literal.unify_complete` — two literals a ground assignment makes equal unify, with a
  unifier more general than the assignment.
* `Clause.renameWithSub_fst` — the renamed clause is the clause under the renaming.
-/

namespace Modus.Logic

/-! ## Substitutions -/

/-- Modelled from the spec: `Substitution`, a finite map from variables to terms,
as an association list whose first binding wins. -/
abbrev Substitution := List (IRTerm × IRTerm)

/-- Modelled from the spec: `HashMap::get` on a substitution. -/
def Substitution.lookup : Substitution → IRTerm → Option IRTerm
  | [], _ => none
  | (k, v) :: s, t => if k = t then some v else lookup s t

/-- Modelled from the spec: `Substitute for IRTerm`. Constants are never keys, so
they are left alone; a variable is replaced by its binding, if it has one. -/
def IRTerm.substitute (t : IRTerm) (s : Substitution) : IRTerm :=
  match t with
  | .constant _ => t
  | _ => (s.lookup t).getD t

/-- Modelled from the spec: `Substitute for Literal`, argument by argument. -/
def Literal.substitute (l : Literal) (s : Substitution) : Literal :=
  { l with args := l.args.map (·.substitute s) }

/-- Modelled from the spec: `Substitute for Clause`. -/
def Clause.substitute (c : Clause) (s : Substitution) : Clause :=
  ⟨c.head.substitute s, c.body.map (·.substitute s)⟩

/-- Modelled from the spec: `compose_no_extend(l, r)` keeps the keys of `l` and
sends each binding through `r`. -/
def composeNoExtend (l r : Substitution) : Substitution :=
  l.map fun (k, v) => (k, v.substitute r)

/-- Modelled from the spec: `compose_extend(l, r)` is `compose_no_extend(l, r)`
with the bindings of `r` whose key is not bound by `l` added. -/
def composeExtend (l r : Substitution) : Substitution :=
  composeNoExtend l r ++ r.filter fun (k, _) => (l.lookup k).isNone

namespace Substitution

@[simp] theorem lookup_nil (t : IRTerm) : lookup [] t = none := rfl

theorem lookup_cons (k v t : IRTerm) (s : Substitution) :
    lookup ((k, v) :: s) t = if k = t then some v else lookup s t := rfl

theorem lookup_append (s₁ s₂ : Substitution) (t : IRTerm) :
    lookup (s₁ ++ s₂) t = (lookup s₁ t).or (lookup s₂ t) := by
  induction s₁ with
  | nil => rfl
  | cons kv s₁ ih => obtain ⟨k, v⟩ := kv; by_cases hk : k = t <;> simp [lookup, hk, ih]

theorem lookup_filter_of_none {s r : Substitution} {t : IRTerm} (h : lookup s t = none) :
    lookup (r.filter fun (k, _) => (lookup s k).isNone) t = lookup r t := by
  induction r with
  | nil => rfl
  | cons kv r ih =>
      obtain ⟨k, v⟩ := kv
      by_cases hk : k = t
      · subst hk; simp [lookup, h]
      · by_cases hs : (lookup s k).isNone <;> simp [lookup, hk, hs, ih]

theorem lookup_eq_some_mem {s : Substitution} {t v : IRTerm} (h : lookup s t = some v) :
    (t, v) ∈ s := by
  induction s with
  | nil => simp at h
  | cons kv s ih =>
      obtain ⟨k, w⟩ := kv
      by_cases hk : k = t
      · simp_all [lookup]
      · simp only [lookup, hk, if_false] at h; exact List.mem_cons_of_mem _ (ih h)

theorem lookup_isSome_of_mem {s : Substitution} {t v : IRTerm} (h : (t, v) ∈ s) :
    (lookup s t).isSome := by
  induction s with
  | nil => simp at h
  | cons kv s ih =>
      obtain ⟨k, w⟩ := kv
      by_cases hk : k = t
      · simp [lookup, hk]
      · simp only [List.mem_cons, Prod.mk.injEq] at h
        simpa [lookup, hk] using ih (h.resolve_left fun h' => hk h'.1.symm)

end Substitution

namespace IRTerm

@[simp] theorem substitute_constant (c : String) (s : Substitution) :
    (constant c).substitute s = constant c := rfl

@[simp] theorem substitute_nil (t : IRTerm) : t.substitute [] = t := by
  cases t <;> rfl

theorem substitute_of_isGround {t : IRTerm} (h : t.isGround = true) (s : Substitution) :
    t.substitute s = t := by
  obtain ⟨c, rfl⟩ := isGround_iff.mp h; rfl

theorem substitute_of_not_ground {t : IRTerm} (h : t.isGround = false) (s : Substitution) :
    t.substitute s = (s.lookup t).getD t := by
  cases t <;> simp_all [substitute, isGround]

/-- Substituting by a single binding. -/
theorem substitute_single (t k v : IRTerm) (hk : k.isGround = false) :
    t.substitute [(k, v)] = if t = k then v else t := by
  cases ht : t.isGround
  · rw [substitute_of_not_ground ht]
    by_cases h : k = t
    · simp [Substitution.lookup, h]
    · simp [Substitution.lookup, h, Ne.symm h]
  · rw [substitute_of_isGround ht]; split <;> simp_all

end IRTerm

/-- `compose_no_extend` binds the keys of its left argument, sent through the right. -/
theorem lookup_composeNoExtend (l r : Substitution) (t : IRTerm) :
    (composeNoExtend l r).lookup t = (l.lookup t).map (·.substitute r) := by
  induction l with
  | nil => rfl
  | cons kv l ih =>
      obtain ⟨k, v⟩ := kv
      by_cases hk : k = t <;> simp_all [composeNoExtend, Substitution.lookup]

/-- **Composition.** `compose_extend s₁ s₂` behaves as "first `s₁`, then `s₂`". -/
theorem IRTerm.substitute_composeExtend (t : IRTerm) (s₁ s₂ : Substitution) :
    t.substitute (composeExtend s₁ s₂) = (t.substitute s₁).substitute s₂ := by
  cases ht : t.isGround
  · rw [substitute_of_not_ground ht, substitute_of_not_ground ht, composeExtend,
      Substitution.lookup_append, lookup_composeNoExtend]
    cases h : s₁.lookup t with
    | some v => rfl
    | none => simp [Substitution.lookup_filter_of_none h, substitute_of_not_ground ht]
  · simp [substitute_of_isGround ht]

theorem IRTerm.ground_substitute (t : IRTerm) (σ : Substitution) (θ : IRTerm → String) :
    (t.substitute σ).ground θ = t.ground fun v => (v.substitute σ).ground θ := by
  cases t <;> rfl

@[simp] theorem composeExtend_nil_left (s : Substitution) : composeExtend [] s = s := by
  simp [composeExtend, composeNoExtend]

@[simp] theorem composeExtend_nil_right (s : Substitution) : composeExtend s [] = s := by
  simp [composeExtend, composeNoExtend]

theorem Literal.substitute_composeExtend (l : Literal) (s₁ s₂ : Substitution) :
    l.substitute (composeExtend s₁ s₂) = (l.substitute s₁).substitute s₂ := by
  simp [Literal.substitute, IRTerm.substitute_composeExtend]

@[simp] theorem Literal.substitute_predicate (l : Literal) (s : Substitution) :
    (l.substitute s).predicate = l.predicate := rfl

@[simp] theorem Literal.substitute_args (l : Literal) (s : Substitution) :
    (l.substitute s).args = l.args.map (·.substitute s) := rfl

@[simp] theorem Literal.substitute_position (l : Literal) (s : Substitution) :
    (l.substitute s).position = l.position := rfl

@[simp] theorem Literal.signature_substitute (l : Literal) (s : Substitution) :
    (l.substitute s).signature = l.signature := by
  simp [Literal.signature]

/-! ## Unification -/

/-- Modelled from the spec: the argument loop of `Literal::unify`. `s` is the
unifier built so far. Each pair is compared after `s` is applied to it; two
different constants fail, and otherwise the variable side is bound to the other
side and that binding is composed onto `s`. -/
def unifyArgs (s : Substitution) : List IRTerm → List IRTerm → Option Substitution
  | [], [] => some s
  | x :: xs, y :: ys =>
      if x.substitute s = y.substitute s then unifyArgs s xs ys
      else match x.substitute s, y.substitute s with
        | .constant _, .constant _ => none
        | .constant c, v => unifyArgs (composeExtend s [(v, .constant c)]) xs ys
        | v, t => unifyArgs (composeExtend s [(v, t)]) xs ys
  | _, _ => none

/-- Modelled from the spec: `Literal::unify` fails on different signatures and
otherwise unifies the arguments pairwise, starting from the empty substitution. -/
def Literal.unify (l r : Literal) : Option Substitution :=
  if l.signature = r.signature then unifyArgs [] l.args r.args else none

/-- A binding step of `unifyArgs` keeps the factorisation and adds the equation of
the pair just bound. -/
private theorem unifyArgs_bind {s σ : Substitution} {x y v t : IRTerm} {xs ys : List IRTerm}
    (hx : (x.substitute s).substitute [(v, t)] = t) (hy : (y.substitute s).substitute [(v, t)] = t)
    (ih : (∃ τ : Substitution, ∀ u : IRTerm,
        u.substitute σ = (u.substitute (composeExtend s [(v, t)])).substitute τ) ∧
      xs.map (·.substitute σ) = ys.map (·.substitute σ)) :
    (∃ τ : Substitution, ∀ u : IRTerm, u.substitute σ = (u.substitute s).substitute τ) ∧
      (x :: xs).map (·.substitute σ) = (y :: ys).map (·.substitute σ) := by
  obtain ⟨⟨τ, hτ⟩, hrest⟩ := ih
  refine ⟨⟨composeExtend [(v, t)] τ, fun u => ?_⟩, ?_⟩
  · rw [hτ, IRTerm.substitute_composeExtend, IRTerm.substitute_composeExtend]
  · simp only [List.map_cons, hrest]
    rw [hτ x, hτ y, IRTerm.substitute_composeExtend, IRTerm.substitute_composeExtend, hx, hy]

/-- The result of `unifyArgs s` factors through `s`, and unifies the two lists. -/
theorem unifyArgs_sound {s σ : Substitution} {xs ys : List IRTerm}
    (h : unifyArgs s xs ys = some σ) :
    (∃ τ : Substitution, ∀ t : IRTerm, t.substitute σ = (t.substitute s).substitute τ) ∧
      xs.map (·.substitute σ) = ys.map (·.substitute σ) := by
  induction s, xs, ys using unifyArgs.induct with
  | case1 s => cases h; exact ⟨⟨[], by simp⟩, rfl⟩
  | case2 s x xs y ys heq ih =>
      rw [unifyArgs, if_pos heq] at h
      obtain ⟨⟨τ, hτ⟩, hrest⟩ := ih h
      exact ⟨⟨τ, hτ⟩, by simp only [List.map_cons, hrest, hτ x, hτ y, heq]⟩
  | case3 s x xs y ys hne c d hy hx =>
      have hcd : c ≠ d := fun hcd => hne (by rw [hx, hy, hcd])
      simp [unifyArgs, hx, hy, hcd] at h
  | case4 s x xs y ys hne c hx hy ih =>
      rw [unifyArgs, if_neg hne, hx] at h
      cases hys : y.substitute s
      case constant d => exact absurd hys (hy d)
      all_goals
        rw [hys] at h ih
        exact unifyArgs_bind (by rw [hx]; rfl)
          (by rw [hys, IRTerm.substitute_single _ _ _ (by rfl), if_pos rfl]) (ih h)
  | case5 s x xs y ys hne hx hxy ih =>
      rw [unifyArgs, if_neg hne] at h
      cases hxs : x.substitute s
      case constant c => exact absurd hxs (hx c)
      all_goals
        rw [hxs] at h ih
        exact unifyArgs_bind (by rw [hxs, IRTerm.substitute_single _ _ _ (by rfl), if_pos rfl])
          (by rw [IRTerm.substitute_single _ _ _ (by rfl)]; split <;> rfl) (ih h)
  | case6 xs s ys hnil hcons =>
      cases xs <;> cases ys
      · exact (hnil rfl rfl).elim
      · simp [unifyArgs] at h
      · simp [unifyArgs] at h
      · exact (hcons _ _ _ _ rfl rfl).elim

/-- **Unification soundness.** The unifier makes both literals equal, position aside. -/
theorem Literal.unify_sound {l r : Literal} {σ : Substitution} (h : l.unify r = some σ) :
    (l.substitute σ).eqIgnoringPosition (r.substitute σ) := by
  unfold Literal.unify at h
  split at h
  · rename_i hsig
    exact ⟨congrArg Signature.predicate hsig, (unifyArgs_sound h).2⟩
  · cases h

/-! ## What a unifier binds -/

section Closed

variable (P : IRTerm → Prop)

/-- A term under a substitution is the term or one of the substitution's values. -/
theorem IRTerm.substitute_closed {t : IRTerm} {s : Substitution} (ht : P t)
    (hs : ∀ kv ∈ s, P kv.2) : P (t.substitute s) := by
  cases hg : t.isGround
  · rw [IRTerm.substitute_of_not_ground hg]
    cases hl : s.lookup t with
    | none => exact ht
    | some v => exact hs _ (Substitution.lookup_eq_some_mem hl)
  · rwa [IRTerm.substitute_of_isGround hg]

theorem composeExtend_closed {s r : Substitution} (hs : ∀ kv ∈ s, P kv.1 ∧ P kv.2)
    (hr : ∀ kv ∈ r, P kv.1 ∧ P kv.2) : ∀ kv ∈ composeExtend s r, P kv.1 ∧ P kv.2 := by
  intro kv hkv
  rcases List.mem_append.mp hkv with h | h
  · obtain ⟨⟨k, v⟩, hm, rfl⟩ := List.mem_map.mp h
    exact ⟨(hs _ hm).1, IRTerm.substitute_closed P (hs _ hm).2 fun kv h => (hr kv h).2⟩
  · exact hr kv (List.mem_filter.mp h).1

/-- **A unifier binds only the terms it unifies.** If every term of both lists, and
every binding of the unifier so far, satisfies `P`, so does every binding of the
result. -/
theorem unifyArgs_closed {s σ : Substitution} {xs ys : List IRTerm}
    (hs : ∀ kv ∈ s, P kv.1 ∧ P kv.2) (hX : ∀ x ∈ xs, P x) (hY : ∀ y ∈ ys, P y)
    (h : unifyArgs s xs ys = some σ) : ∀ kv ∈ σ, P kv.1 ∧ P kv.2 := by
  induction s, xs, ys using unifyArgs.induct with
  | case1 s => cases h; exact hs
  | case2 s x xs y ys heq ih =>
      rw [unifyArgs, if_pos heq] at h
      exact ih hs (fun x hx => hX x (.tail _ hx)) (fun y hy => hY y (.tail _ hy)) h
  | case3 s x xs y ys hne c d hy hx =>
      have hcd : c ≠ d := fun hcd => hne (by rw [hx, hy, hcd])
      simp [unifyArgs, hx, hy, hcd] at h
  | case4 s x xs y ys hne c hx hy ih =>
      have hxP := IRTerm.substitute_closed P (hX x (.head _)) fun kv h => (hs kv h).2
      have hyP := IRTerm.substitute_closed P (hY y (.head _)) fun kv h => (hs kv h).2
      rw [unifyArgs, if_neg hne, hx] at h
      rw [hx] at hxP
      cases hys : y.substitute s
      case constant d => exact absurd hys (hy d)
      all_goals
        rw [hys] at h ih hyP
        exact ih (composeExtend_closed P hs (by simpa using ⟨hyP, hxP⟩))
          (fun x hx => hX x (.tail _ hx)) (fun y hy => hY y (.tail _ hy)) h
  | case5 s x xs y ys hne hx hxy ih =>
      have hxP := IRTerm.substitute_closed P (hX x (.head _)) fun kv h => (hs kv h).2
      have hyP := IRTerm.substitute_closed P (hY y (.head _)) fun kv h => (hs kv h).2
      rw [unifyArgs, if_neg hne] at h
      cases hxs : x.substitute s
      case constant c => exact absurd hxs (hx c)
      all_goals
        rw [hxs] at h ih hxP
        exact ih (composeExtend_closed P hs (by simpa using ⟨hxP, hyP⟩))
          (fun x hx => hX x (.tail _ hx)) (fun y hy => hY y (.tail _ hy)) h
  | case6 xs s ys hnil hcons =>
      cases xs <;> cases ys
      · exact (hnil rfl rfl).elim
      · simp [unifyArgs] at h
      · simp [unifyArgs] at h
      · exact (hcons _ _ _ _ rfl rfl).elim

theorem Literal.unify_closed {l r : Literal} {σ : Substitution} (h : l.unify r = some σ)
    (hl : ∀ t ∈ l.args, P t) (hr : ∀ t ∈ r.args, P t) : ∀ kv ∈ σ, P kv.1 ∧ P kv.2 := by
  unfold Literal.unify at h
  split at h
  · exact unifyArgs_closed P (by simp) hl hr h
  · cases h

end Closed

/-! ## Ground unifiers -/

section Ground

variable {θ : IRTerm → String}

/-- Binding a variable to a term of the same value keeps a ground assignment fixed. -/
private theorem ground_composeExtend_single {s : Substitution} {v t : IRTerm}
    (hv : v.isGround = false) (hs : ∀ u : IRTerm, (u.substitute s).ground θ = u.ground θ)
    (hvt : t.ground θ = v.ground θ) (u : IRTerm) :
    (u.substitute (composeExtend s [(v, t)])).ground θ = u.ground θ := by
  rw [IRTerm.substitute_composeExtend, IRTerm.substitute_single _ _ _ hv]
  split
  · rename_i h; rw [hvt, ← h, hs]
  · exact hs u

/-- **Unification finds every ground unifier.** If the ground assignment `θ` makes the
two lists equal and is fixed by the substitution built so far, `unifyArgs` succeeds,
and `θ` is fixed by its result: the result is more general than `θ`. -/
theorem unifyArgs_complete {s : Substitution} {xs ys : List IRTerm}
    (hs : ∀ u : IRTerm, (u.substitute s).ground θ = u.ground θ)
    (h : xs.map (·.ground θ) = ys.map (·.ground θ)) :
    ∃ σ, unifyArgs s xs ys = some σ ∧ ∀ u : IRTerm, (u.substitute σ).ground θ = u.ground θ := by
  induction s, xs, ys using unifyArgs.induct with
  | case1 s => exact ⟨s, rfl, hs⟩
  | case2 s x xs y ys heq ih =>
      rw [unifyArgs, if_pos heq]
      exact ih hs (List.cons.inj h).2
  | case3 s x xs y ys hne c d hy hx =>
      have hxy : (x.substitute s).ground θ = (y.substitute s).ground θ := by
        rw [hs, hs]; exact (List.cons.inj h).1
      rw [hx, hy] at hxy
      exact absurd (by rw [hx, hy, show c = d from hxy]) hne
  | case4 s x xs y ys hne c hx hy ih =>
      have hxy : (x.substitute s).ground θ = (y.substitute s).ground θ := by
        rw [hs, hs]; exact (List.cons.inj h).1
      rw [unifyArgs, if_neg hne, hx]
      rw [hx] at hxy
      cases hys : y.substitute s
      case constant d => exact absurd hys (hy d)
      all_goals
        rw [hys] at ih hxy
        exact ih (ground_composeExtend_single rfl hs hxy) (List.cons.inj h).2
  | case5 s x xs y ys hne hx hxy ih =>
      have hxy' : (x.substitute s).ground θ = (y.substitute s).ground θ := by
        rw [hs, hs]; exact (List.cons.inj h).1
      rw [unifyArgs, if_neg hne]
      cases hxs : x.substitute s
      case constant c => exact absurd hxs (hx c)
      all_goals
        rw [hxs] at ih hxy'
        exact ih (ground_composeExtend_single rfl hs hxy'.symm) (List.cons.inj h).2
  | case6 xs s ys hnil hcons =>
      have hlen := congrArg List.length h
      simp only [List.length_map] at hlen
      cases xs <;> cases ys
      · exact (hnil rfl rfl).elim
      · simp at hlen
      · simp at hlen
      · exact (hcons _ _ _ _ rfl rfl).elim

/-- **`Literal::unify` finds every ground unifier.** Two literals of one predicate that a
ground assignment makes equal unify, and the unifier is more general than the
assignment. -/
theorem Literal.unify_complete {l r : Literal} (hp : l.predicate = r.predicate)
    (h : l.args.map (·.ground θ) = r.args.map (·.ground θ)) :
    ∃ σ, l.unify r = some σ ∧ ∀ u : IRTerm, (u.substitute σ).ground θ = u.ground θ := by
  have hlen : l.args.length = r.args.length := by simpa using congrArg List.length h
  rw [Literal.unify, if_pos (by simp [Literal.signature, hp, hlen])]
  exact unifyArgs_complete (fun u => by rw [IRTerm.substitute_nil]) h

end Ground

theorem Literal.eqIgnoringPosition.symm {l r : Literal} (h : l.eqIgnoringPosition r) :
    r.eqIgnoringPosition l :=
  ⟨h.1.symm, h.2.symm⟩

theorem Literal.eqIgnoringPosition.trans {l m r : Literal} (h₁ : l.eqIgnoringPosition m)
    (h₂ : m.eqIgnoringPosition r) : l.eqIgnoringPosition r :=
  ⟨h₁.1.trans h₂.1, h₁.2.trans h₂.2⟩

theorem Literal.eqIgnoringPosition.substitute {l r : Literal} (h : l.eqIgnoringPosition r)
    (s : Substitution) : (l.substitute s).eqIgnoringPosition (r.substitute s) :=
  ⟨h.1, by simp only [Literal.substitute_args, h.2]⟩

theorem Literal.substitute_congr {l : Literal} {s s' : Substitution}
    (h : ∀ t ∈ l.args, t.substitute s = t.substitute s') : l.substitute s = l.substitute s' := by
  simp only [Literal.substitute, List.map_congr_left h]

/-- A literal with ground arguments is left alone. -/
theorem Literal.substitute_of_ground {l : Literal} (h : ∀ t ∈ l.args, t.isGround = true)
    (s : Substitution) : l.substitute s = l := by
  obtain ⟨pos, pred, args⟩ := l
  simp only [Literal.substitute, Literal.mk.injEq, true_and]
  rw [List.map_congr_left fun t ht => IRTerm.substitute_of_isGround (h t ht) s, List.map_id']

/-- A term no key of the substitution names is left alone. -/
theorem IRTerm.substitute_of_forall_ne {t : IRTerm} {s : Substitution}
    (h : ∀ kv ∈ s, kv.1 ≠ t) : t.substitute s = t := by
  cases hg : t.isGround
  · rw [IRTerm.substitute_of_not_ground hg]
    cases hl : s.lookup t with
    | none => rfl
    | some v => exact absurd rfl (h _ (Substitution.lookup_eq_some_mem hl))
  · exact IRTerm.substitute_of_isGround hg s

/-- `target` is an instance of `l`: some substitution turns `l` into `target`,
position aside. -/
def IsInstance (target l : Literal) : Prop :=
  ∃ σ : Substitution, (l.substitute σ).eqIgnoringPosition target

/-- Instantiating after binding `v` to a constant is instantiating by a
substitution that already sends `v` to that constant. -/
private theorem exists_bind_iff {v : IRTerm} {c : String} (hv : v.isGround = false)
    (us xs : List IRTerm) :
    (∃ θ : Substitution, (us.map (·.substitute [(v, .constant c)])).map (·.substitute θ) = xs) ↔
      ∃ θ : Substitution, v.substitute θ = .constant c ∧ us.map (·.substitute θ) = xs := by
  constructor
  · rintro ⟨θ, hθ⟩
    refine ⟨composeExtend [(v, .constant c)] θ, ?_, ?_⟩
    · rw [IRTerm.substitute_composeExtend, IRTerm.substitute_single _ _ _ hv, if_pos rfl]; rfl
    · simpa [IRTerm.substitute_composeExtend] using hθ
  · rintro ⟨θ, hv', hθ⟩
    refine ⟨θ, ?_⟩
    rw [← hθ, List.map_map]
    refine List.map_congr_left fun u _ => ?_
    simp only [Function.comp_apply, IRTerm.substitute_single _ _ _ hv]
    split <;> simp_all

/-- Against ground terms, `unifyArgs` succeeds exactly when the other side, under
the substitution built so far, can be instantiated to them. -/
theorem unifyArgs_ground_isSome (s : Substitution) {xs : List IRTerm}
    (hxs : ∀ x ∈ xs, x.isGround = true) (ys : List IRTerm) :
    (unifyArgs s xs ys).isSome ↔
      ∃ θ : Substitution, (ys.map (·.substitute s)).map (·.substitute θ) = xs := by
  induction s, xs, ys using unifyArgs.induct with
  | case1 s => exact ⟨fun _ => ⟨[], rfl⟩, fun _ => rfl⟩
  | case2 s x xs y ys heq ih =>
      have hx : x.substitute s = x := IRTerm.substitute_of_isGround (hxs x (by simp)) s
      rw [unifyArgs, if_pos heq, ih fun t ht => hxs t (by simp [ht])]
      simp only [List.map_cons, List.cons.injEq, ← heq, hx,
        IRTerm.substitute_of_isGround (hxs x (by simp)), true_and]
  | case3 s x xs y ys hne c d hy hx =>
      have hcd : c ≠ d := fun hcd => hne (by rw [hx, hy, hcd])
      have hxg : x = .constant c := by rw [← hx, IRTerm.substitute_of_isGround (hxs x (by simp))]
      rw [unifyArgs, if_neg hne, hx, hy]
      simp only [Option.isSome_none, Bool.false_eq_true, false_iff, not_exists, List.map_cons,
        List.cons.injEq, hy, hxg, IRTerm.substitute_constant, IRTerm.constant.injEq, not_and]
      exact fun _ h => absurd h.symm hcd
  | case4 s x xs y ys hne c hx hy ih =>
      have hxc : x = .constant c := by
        rwa [IRTerm.substitute_of_isGround (hxs x (by simp))] at hx
      have hv : (y.substitute s).isGround = false :=
        Bool.eq_false_iff.mpr fun h => (IRTerm.isGround_iff.mp h).elim hy
      have hstep : unifyArgs s (x :: xs) (y :: ys) =
          unifyArgs (composeExtend s [(y.substitute s, .constant c)]) xs ys := by
        rw [unifyArgs, if_neg hne, hx]
        cases hys : y.substitute s with
        | constant d => exact (hy d hys).elim
        | _ => rfl
      rw [hstep, ih fun t ht => hxs t (by simp [ht]), hxc]
      simp only [List.map_cons, List.cons.injEq, List.map_map, Function.comp_def,
        IRTerm.substitute_composeExtend]
      simpa [List.map_map, Function.comp_def] using exists_bind_iff hv (ys.map (·.substitute s)) xs
  | case5 s x xs y ys hne hx hxy ih =>
      obtain ⟨c, rfl⟩ := IRTerm.isGround_iff.mp (hxs x (by simp))
      exact absurd rfl (hx c)
  | case6 xs s ys hnil hcons =>
      cases xs <;> cases ys
      · exact (hnil rfl rfl).elim
      · simp [unifyArgs]
      · simp [unifyArgs]
      · exact (hcons _ _ _ _ rfl rfl).elim

/-- Against a literal with ground arguments, unification succeeds exactly when
that literal is an instance of the other. -/
theorem Literal.unify_isSome_iff {h l : Literal} (hg : ∀ t ∈ h.args, t.isGround = true) :
    (h.unify l).isSome ↔ IsInstance h l := by
  unfold Literal.unify IsInstance Literal.eqIgnoringPosition
  split
  · rename_i hsig
    have hp : l.predicate = h.predicate := (congrArg Signature.predicate hsig).symm
    simp [unifyArgs_ground_isSome [] hg, hp]
  · rename_i hsig
    simp only [Option.isSome_none, Bool.false_eq_true, false_iff, not_exists, not_and]
    intro σ hp hargs
    simp only [Literal.substitute_predicate, Literal.substitute_args] at hp hargs
    exact hsig (by simp [Literal.signature, hp, ← hargs])

/-! ## Renaming a clause -/

/-- Modelled from the spec: the renaming substitution of `rename_with_sub`, which
maps each variable, in turn, to `IRTerm::rename` of itself. -/
def renameAll : List IRTerm → Nat → Substitution × Nat
  | [], n => ([], n)
  | v :: vs, n => ((v, (v.rename n).1) :: (renameAll vs (v.rename n).2).1,
      (renameAll vs (v.rename n).2).2)

/-- Modelled from the spec: `Clause::rename_with_sub` renames every variable of the
clause (each once: the source collects them in a `HashSet`) and returns the
renamed clause with the renaming. -/
def Clause.renameWithSub (c : Clause) (n : Nat) : (Clause × Substitution) × Nat :=
  ((c.substitute (renameAll c.vars.dedup n).1, (renameAll c.vars.dedup n).1),
    (renameAll c.vars.dedup n).2)

/-- The renamed clause is the clause under the renaming. -/
theorem Clause.renameWithSub_fst (c : Clause) (n : Nat) :
    (c.renameWithSub n).1.1 = c.substitute (c.renameWithSub n).1.2 := rfl

@[simp] theorem Clause.substitute_head (c : Clause) (s : Substitution) :
    (c.substitute s).head = c.head.substitute s := rfl

@[simp] theorem Clause.substitute_body (c : Clause) (s : Substitution) :
    (c.substitute s).body = c.body.map (·.substitute s) := rfl

/-- The keys of the renaming are the variables it renames, in order. -/
theorem renameAll_keys : ∀ (vs : List IRTerm) (n : Nat), (renameAll vs n).1.map Prod.fst = vs
  | [], _ => rfl
  | v :: vs, n => by simp [renameAll, renameAll_keys vs]

/-- The renaming draws from the counter: each value is renamed in `[n, n')`. -/
theorem renameAll_renamedIn : ∀ (vs : List IRTerm) (n : Nat),
    n ≤ (renameAll vs n).2 ∧ ∀ kv ∈ (renameAll vs n).1, kv.2.RenamedIn n (renameAll vs n).2
  | [], n => ⟨le_rfl, by simp [renameAll]⟩
  | v :: vs, n => by
      obtain ⟨hle, hvs⟩ := renameAll_renamedIn vs (v.rename n).2
      have hv := IRTerm.le_rename_snd v n
      refine ⟨by simp only [renameAll]; omega, ?_⟩
      simp only [renameAll, List.mem_cons]
      rintro kv (rfl | hkv)
      · exact (IRTerm.rename_renamedIn v n).mono le_rfl hle
      · exact (hvs kv hkv).mono hv le_rfl

section Renaming

variable {c : Clause} {n : Nat}

/-- Each value of the renaming is its key renamed by `IRTerm::rename`. -/
theorem renameAll_rename : ∀ (vs : List IRTerm) (n : Nat),
    ∀ kv ∈ (renameAll vs n).1, ∃ k, kv.2 = (kv.1.rename k).1
  | [], _ => by simp [renameAll]
  | v :: vs, n => by
      simp only [renameAll, List.mem_cons]
      rintro kv (rfl | hkv)
      · exact ⟨n, rfl⟩
      · exact renameAll_rename vs _ kv hkv

/-- Every variable of a clause is a key of its renaming. -/
theorem Clause.lookup_renameWithSub_isSome {t : IRTerm} (ht : t ∈ c.vars) :
    ((c.renameWithSub n).1.2.lookup t).isSome := by
  have hkey : t ∈ (c.renameWithSub n).1.2.map Prod.fst := by
    rw [Clause.renameWithSub, renameAll_keys]; exact List.mem_dedup.mpr ht
  obtain ⟨⟨k, v⟩, hm, rfl⟩ := List.mem_map.mp hkey
  exact Substitution.lookup_isSome_of_mem hm

/-- A variable of a clause is renamed by `IRTerm::rename` at some counter. -/
theorem Clause.lookup_renameWithSub {t : IRTerm} (ht : t ∈ c.vars) :
    ∃ k, (c.renameWithSub n).1.2.lookup t = some (t.rename k).1 := by
  obtain ⟨v, hv⟩ := Option.isSome_iff_exists.mp (Clause.lookup_renameWithSub_isSome (n := n) ht)
  obtain ⟨k, hk⟩ := renameAll_rename _ _ _ (Substitution.lookup_eq_some_mem hv)
  exact ⟨k, hv.trans (congrArg some hk)⟩

/-- The literals of a clause: its head and its body. -/
theorem Clause.mem_vars_of_literal {l : Literal} (hl : l = c.head ∨ l ∈ c.body) {t : IRTerm}
    (ht : t ∈ l.args) (hg : t.isGround = false) : t ∈ c.vars := by
  have hv : t ∈ l.vars := Literal.mem_vars.mpr ⟨ht, hg⟩
  rcases hl with rfl | hl
  · exact List.mem_append_right _ hv
  · exact List.mem_append_left _ (List.mem_flatMap.mpr ⟨l, hl, hv⟩)

/-- Renaming a clause at counter `n` draws its ids from `n` on: the counter does
not go back, and every term of the renaming is renamed in `[n, n')`. -/
theorem Clause.renameWithSub_renamedIn (c : Clause) (n : Nat) :
    n ≤ (c.renameWithSub n).2 ∧
      ∀ kv ∈ (c.renameWithSub n).1.2, kv.2.RenamedIn n (c.renameWithSub n).2 :=
  renameAll_renamedIn c.vars.dedup n

/-- The terms of a renamed clause are constants or values of the renaming. -/
theorem Clause.renameWithSub_terms {l : Literal} (hl : l = c.head ∨ l ∈ c.body) :
    ∀ t ∈ (l.substitute (c.renameWithSub n).1.2).args,
      t.isGround = true ∨ ∃ kv ∈ (c.renameWithSub n).1.2, kv.2 = t := by
  intro t ht
  obtain ⟨t₀, ht₀, rfl⟩ := List.mem_map.mp ht
  cases hg : t₀.isGround
  · obtain ⟨v, hv⟩ := Option.isSome_iff_exists.mp
      (Clause.lookup_renameWithSub_isSome (n := n) (c.mem_vars_of_literal hl ht₀ hg))
    refine .inr ⟨(t₀, v), Substitution.lookup_eq_some_mem hv, ?_⟩
    simp [IRTerm.substitute_of_not_ground hg, hv]
  · exact .inl (by rw [IRTerm.substitute_of_isGround hg]; exact hg)

/-- Through the renaming of a clause, `compose_no_extend` of the renaming with `σ`
acts on the clause's literals as the renaming followed by `σ`. -/
theorem Clause.substitute_composeNoExtend_renaming {l : Literal} (hl : l = c.head ∨ l ∈ c.body)
    (σ : Substitution) :
    l.substitute (composeNoExtend (c.renameWithSub n).1.2 σ) =
      (l.substitute (c.renameWithSub n).1.2).substitute σ := by
  simp only [Literal.substitute, Literal.mk.injEq, List.map_map, true_and]
  refine List.map_congr_left fun t ht => ?_
  cases hg : t.isGround
  · obtain ⟨v, hv⟩ := Option.isSome_iff_exists.mp
      (Clause.lookup_renameWithSub_isSome (n := n) (c.mem_vars_of_literal hl ht hg))
    simp [IRTerm.substitute_of_not_ground hg, lookup_composeNoExtend, hv]
  · simp [IRTerm.substitute_of_isGround hg]

end Renaming

end Modus.Logic
