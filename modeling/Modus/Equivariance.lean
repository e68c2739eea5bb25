import Modus.Builtin

/-!
# Renaming the ids of fresh variables

Two runs of the engine that rename the same clause at different counters draw
different ids for the same fresh variables. To compare the runs we rename ids:
`IRTerm.mapId f` sends the id of a renamed variable through `f` and leaves every
other term alone. Everything the engine does with terms commutes with such a
renaming, provided `f` identifies no two ids drawn in the window of the counter
the terms come from (`IdInjective`): substitution, composition, unification and
the builtins. Renaming a clause at another counter is itself a renaming of ids,
by `shiftId`, which sends one window of draws onto another.

## Main results

* `unifyArgs_mapId`, `Literal.unify_mapId` — unification commutes with an id renaming.
* `BuiltinPredicate.resolvent_mapId` — so do the builtins.
* `Clause.renameWithSub_shift` — renaming a clause at counter `n` is renaming it at
  `m` and then shifting the window of ids.
-/

namespace Modus.Logic

/-! ## Renaming ids -/

/-- The term with the id of a renamed variable sent through `f`. -/
def IRTerm.mapId (f : UInt32 → UInt32) : IRTerm → IRTerm
  | .renamedVariable i v => .renamedVariable (f i) v
  | t => t

/-- A literal with the ids of its renamed variables sent through `f`. -/
def Literal.mapId (f : UInt32 → UInt32) (l : Literal) : Literal :=
  { l with args := l.args.map (·.mapId f) }

/-- A clause with the ids of its renamed variables sent through `f`. -/
def Clause.mapId (f : UInt32 → UInt32) (c : Clause) : Clause :=
  ⟨c.head.mapId f, c.body.map (·.mapId f)⟩

/-- A substitution with both sides of every binding renamed. -/
def Substitution.mapId (f : UInt32 → UInt32) (s : Substitution) : Substitution :=
  s.map fun kv => (kv.1.mapId f, kv.2.mapId f)

/-- Every argument of the literal has its ids drawn in `[lo, hi)`. -/
def Literal.IdsIn (lo hi : Nat) (l : Literal) : Prop := ∀ t ∈ l.args, t.IdsIn lo hi

/-- Both sides of every binding have their ids drawn in `[lo, hi)`. -/
def Substitution.IdsIn (lo hi : Nat) (s : Substitution) : Prop :=
  ∀ kv ∈ s, kv.1.IdsIn lo hi ∧ kv.2.IdsIn lo hi

/-- `f` identifies no two ids drawn at counters in `[lo, hi)`. -/
def IdInjective (f : UInt32 → UInt32) (lo hi : Nat) : Prop :=
  ∀ k k', lo ≤ k → k < hi → lo ≤ k' → k' < hi →
    f (UInt32.ofNat k) = f (UInt32.ofNat k') → UInt32.ofNat k = UInt32.ofNat k'

theorem IdInjective.mono {f : UInt32 → UInt32} {lo hi hi' : Nat} (h : IdInjective f lo hi)
    (hle : hi' ≤ hi) : IdInjective f lo hi' :=
  fun k k' h₁ h₂ h₁' h₂' => h k k' h₁ (by omega) h₁' (by omega)

namespace IRTerm

variable {f : UInt32 → UInt32} {lo hi : Nat}

@[simp] theorem mapId_constant (c : String) : (constant c).mapId f = constant c := rfl

@[simp] theorem mapId_userVariable (v : String) : (userVariable v).mapId f = userVariable v := rfl

@[simp] theorem mapId_auxiliaryVariable (i : UInt32) :
    (auxiliaryVariable i).mapId f = auxiliaryVariable i := rfl

@[simp] theorem mapId_renamedVariable (i : UInt32) (v : IRTerm) :
    (renamedVariable i v).mapId f = renamedVariable (f i) v := rfl

@[simp] theorem isGround_mapId (t : IRTerm) : (t.mapId f).isGround = t.isGround := by
  cases t <;> rfl

@[simp] theorem asConstant_mapId (t : IRTerm) : (t.mapId f).asConstant = t.asConstant := by
  cases t <;> rfl

@[simp] theorem mapId_id (t : IRTerm) : t.mapId id = t := by
  cases t <;> rfl

theorem mapId_of_isGround {t : IRTerm} (h : t.isGround = true) : t.mapId f = t := by
  obtain ⟨c, rfl⟩ := isGround_iff.mp h; rfl

theorem mapId_mapId (g : UInt32 → UInt32) (t : IRTerm) :
    (t.mapId f).mapId g = t.mapId (g ∘ f) := by
  cases t <;> rfl

/-- Two id maps that agree on the window of a term rename it alike. -/
theorem mapId_congr {g : UInt32 → UInt32} {t : IRTerm} (ht : t.IdsIn lo hi)
    (h : ∀ k, lo ≤ k → k < hi → f (UInt32.ofNat k) = g (UInt32.ofNat k)) : t.mapId f = t.mapId g := by
  cases t
  case renamedVariable i v =>
    obtain ⟨k, h₁, h₂, rfl⟩ := ht _ v rfl
    simp [h k h₁ h₂]
  all_goals rfl

/-- Renaming ids moves a term's ids into the image window. -/
theorem IdsIn.mapId {lo' hi' : Nat} {t : IRTerm} (ht : t.IdsIn lo hi)
    (h : ∀ k, lo ≤ k → k < hi → ∃ k', lo' ≤ k' ∧ k' < hi' ∧ f (UInt32.ofNat k) = UInt32.ofNat k') :
    (t.mapId f).IdsIn lo' hi' := by
  cases t
  case renamedVariable i v =>
    rintro _ _ he
    obtain ⟨k, h₁, h₂, rfl⟩ := ht _ v rfl
    obtain ⟨k', h₁', h₂', hk'⟩ := h k h₁ h₂
    exact ⟨k', h₁', h₂', by rw [← hk']; exact (renamedVariable.inj he).1.symm⟩
  all_goals exact nofun

/-- Within a window on which `f` is injective, renaming ids identifies no two terms. -/
theorem mapId_inj (hf : IdInjective f lo hi) {t t' : IRTerm} (ht : t.IdsIn lo hi)
    (ht' : t'.IdsIn lo hi) (h : t.mapId f = t'.mapId f) : t = t' := by
  cases t <;> cases t' <;> simp only [mapId, reduceCtorEq, renamedVariable.injEq] at h ⊢
  all_goals try exact h
  case renamedVariable.renamedVariable i v i' v' =>
    obtain ⟨k, h₁, h₂, rfl⟩ := ht _ v rfl
    obtain ⟨k', h₁', h₂', rfl⟩ := ht' _ v' rfl
    exact ⟨hf k k' h₁ h₂ h₁' h₂' h.1, h.2⟩

end IRTerm

@[simp] theorem Literal.predicate_mapId (f : UInt32 → UInt32) (l : Literal) :
    (l.mapId f).predicate = l.predicate := rfl

@[simp] theorem Literal.position_mapId (f : UInt32 → UInt32) (l : Literal) :
    (l.mapId f).position = l.position := rfl

@[simp] theorem Literal.args_mapId (f : UInt32 → UInt32) (l : Literal) :
    (l.mapId f).args = l.args.map (·.mapId f) := rfl

@[simp] theorem Literal.mapId_id (l : Literal) : l.mapId id = l := by
  simp [Literal.mapId]

@[simp] theorem Literal.signature_mapId (f : UInt32 → UInt32) (l : Literal) :
    (l.mapId f).signature = l.signature := by
  simp [Literal.signature]

@[simp] theorem Substitution.mapId_nil (f : UInt32 → UInt32) : Substitution.mapId f [] = [] :=
  rfl

theorem Literal.IdsIn.mono {lo hi lo' hi' : Nat} {l : Literal} (h : l.IdsIn lo hi) (hlo : lo' ≤ lo)
    (hhi : hi ≤ hi') : l.IdsIn lo' hi' :=
  fun t ht => (h t ht).mono hlo hhi

theorem Substitution.IdsIn.mono {lo hi lo' hi' : Nat} {s : Substitution} (h : s.IdsIn lo hi)
    (hlo : lo' ≤ lo) (hhi : hi ≤ hi') : s.IdsIn lo' hi' :=
  fun kv hkv => ⟨(h kv hkv).1.mono hlo hhi, (h kv hkv).2.mono hlo hhi⟩

/-- Two id maps that agree on a window rename a literal with ids there alike. -/
theorem Literal.mapId_congr {f g : UInt32 → UInt32} {lo hi : Nat} {l : Literal} (hl : l.IdsIn lo hi)
    (h : ∀ k, lo ≤ k → k < hi → f (UInt32.ofNat k) = g (UInt32.ofNat k)) : l.mapId f = l.mapId g := by
  simp only [Literal.mapId, Literal.mk.injEq, true_and]
  exact List.map_congr_left fun t ht => IRTerm.mapId_congr (hl t ht) h

theorem Substitution.mapId_congr {f g : UInt32 → UInt32} {lo hi : Nat} {s : Substitution}
    (hs : s.IdsIn lo hi) (h : ∀ k, lo ≤ k → k < hi → f (UInt32.ofNat k) = g (UInt32.ofNat k)) :
    s.mapId f = s.mapId g :=
  List.map_congr_left fun kv hkv =>
    by rw [IRTerm.mapId_congr (hs kv hkv).1 h, IRTerm.mapId_congr (hs kv hkv).2 h]

theorem Literal.mapId_of_ground {f : UInt32 → UInt32} {l : Literal}
    (h : ∀ t ∈ l.args, t.isGround = true) : l.mapId f = l := by
  cases l
  simp only [Literal.mapId, Literal.mk.injEq, true_and]
  exact (List.map_congr_left fun t ht => IRTerm.mapId_of_isGround (h t ht)).trans (List.map_id _)

/-! ## Everything the engine does with terms commutes with renaming ids -/

section Equivariance

variable {f : UInt32 → UInt32} {lo hi : Nat}

theorem Substitution.lookup_mapId (hf : IdInjective f lo hi) {s : Substitution} {t : IRTerm}
    (hs : ∀ kv ∈ s, kv.1.IdsIn lo hi) (ht : t.IdsIn lo hi) :
    (s.mapId f).lookup (t.mapId f) = (s.lookup t).map (·.mapId f) := by
  induction s with
  | nil => rfl
  | cons kv s ih =>
      obtain ⟨k, v⟩ := kv
      have hk : k.mapId f = t.mapId f ↔ k = t :=
        ⟨IRTerm.mapId_inj hf (hs _ (.head _)) ht, congrArg _⟩
      have ih' := ih fun kv h => hs kv (.tail _ h)
      simp only [Substitution.mapId, List.map_cons, Substitution.lookup] at ih' ⊢
      by_cases h : k = t
      · simp [h]
      · simp [h, hk.not.mpr h, ih']

theorem IRTerm.substitute_mapId (hf : IdInjective f lo hi) {t : IRTerm} {s : Substitution}
    (hs : ∀ kv ∈ s, kv.1.IdsIn lo hi) (ht : t.IdsIn lo hi) :
    (t.substitute s).mapId f = (t.mapId f).substitute (s.mapId f) := by
  cases hg : t.isGround
  · rw [substitute_of_not_ground hg, substitute_of_not_ground (by simpa using hg),
      Substitution.lookup_mapId hf hs ht]
    cases s.lookup t <;> rfl
  · simp [substitute_of_isGround hg, mapId_of_isGround hg]

theorem Literal.substitute_mapId (hf : IdInjective f lo hi) {l : Literal} {s : Substitution}
    (hs : ∀ kv ∈ s, kv.1.IdsIn lo hi) (hl : l.IdsIn lo hi) :
    (l.substitute s).mapId f = (l.mapId f).substitute (s.mapId f) := by
  simp only [Literal.mapId, Literal.substitute, List.map_map, Literal.mk.injEq, true_and]
  exact List.map_congr_left fun t ht => IRTerm.substitute_mapId hf hs (hl t ht)

theorem composeExtend_mapId (hf : IdInjective f lo hi) {s r : Substitution}
    (hs : s.IdsIn lo hi) (hr : r.IdsIn lo hi) :
    (composeExtend s r).mapId f = composeExtend (s.mapId f) (r.mapId f) := by
  have hkeys : ∀ kv ∈ s, kv.1.IdsIn lo hi := fun kv h => (hs kv h).1
  simp only [composeExtend, composeNoExtend, Substitution.mapId, List.map_append, List.map_map,
    List.filter_map]
  congr 1
  · refine List.map_congr_left fun kv hkv => ?_
    simp [IRTerm.substitute_mapId hf (fun kv h => (hr kv h).1) (hs kv hkv).2, Substitution.mapId]
  · refine congrArg _ (List.filter_congr fun kv hkv => ?_)
    have := Substitution.lookup_mapId hf hkeys (hr kv hkv).1
    simp only [Substitution.mapId] at this
    simp [this]

/-- **Unification commutes with renaming ids.** -/
theorem unifyArgs_mapId (hf : IdInjective f lo hi) {s : Substitution} {xs ys : List IRTerm}
    (hs : s.IdsIn lo hi) (hX : ∀ x ∈ xs, x.IdsIn lo hi) (hY : ∀ y ∈ ys, y.IdsIn lo hi) :
    unifyArgs (s.mapId f) (xs.map (·.mapId f)) (ys.map (·.mapId f)) =
      (unifyArgs s xs ys).map (·.mapId f) := by
  induction s, xs, ys using unifyArgs.induct with
  | case1 s => rfl
  | case2 s x xs y ys heq ih =>
      have hkeys : ∀ kv ∈ s, kv.1.IdsIn lo hi := fun kv h => (hs kv h).1
      rw [List.map_cons, List.map_cons, unifyArgs, unifyArgs, if_pos heq,
        ← IRTerm.substitute_mapId hf hkeys (hX x (.head _)),
        ← IRTerm.substitute_mapId hf hkeys (hY y (.head _)), if_pos (by rw [heq])]
      exact ih hs (fun x hx => hX x (.tail _ hx)) (fun y hy => hY y (.tail _ hy))
  | case3 s x xs y ys hne c d hy hx =>
      have hkeys : ∀ kv ∈ s, kv.1.IdsIn lo hi := fun kv h => (hs kv h).1
      have hcd : c ≠ d := fun hcd => hne (by rw [hx, hy, hcd])
      rw [List.map_cons, List.map_cons, unifyArgs, unifyArgs,
        ← IRTerm.substitute_mapId hf hkeys (hX x (.head _)),
        ← IRTerm.substitute_mapId hf hkeys (hY y (.head _))]
      simp [hx, hy, hcd]
  | case4 s x xs y ys hne c hx hy ih =>
      have hkeys : ∀ kv ∈ s, kv.1.IdsIn lo hi := fun kv h => (hs kv h).1
      have hyP := IRTerm.substitute_closed (·.IdsIn lo hi) (hY y (.head _)) fun kv h => (hs kv h).2
      rw [List.map_cons, List.map_cons, unifyArgs, unifyArgs,
        ← IRTerm.substitute_mapId hf hkeys (hX x (.head _)),
        ← IRTerm.substitute_mapId hf hkeys (hY y (.head _)), if_neg hne,
        if_neg fun h => hne (IRTerm.mapId_inj hf (IRTerm.substitute_closed (·.IdsIn lo hi)
          (hX x (.head _)) fun kv h => (hs kv h).2) hyP h), hx]
      have hbind : Substitution.IdsIn lo hi [(y.substitute s, IRTerm.constant c)] := by
        simpa [Substitution.IdsIn] using hyP
      have ih' := ih (composeExtend_closed (·.IdsIn lo hi) hs hbind) (fun x hx => hX x (.tail _ hx))
        (fun y hy => hY y (.tail _ hy))
      rw [composeExtend_mapId hf hs hbind] at ih'
      cases hys : y.substitute s
      case constant d => exact absurd hys (hy d)
      all_goals rw [hys] at ih'; exact ih'
  | case5 s x xs y ys hne hx hxy ih =>
      have hkeys : ∀ kv ∈ s, kv.1.IdsIn lo hi := fun kv h => (hs kv h).1
      have hxP := IRTerm.substitute_closed (·.IdsIn lo hi) (hX x (.head _)) fun kv h => (hs kv h).2
      have hyP := IRTerm.substitute_closed (·.IdsIn lo hi) (hY y (.head _)) fun kv h => (hs kv h).2
      rw [List.map_cons, List.map_cons, unifyArgs, unifyArgs,
        ← IRTerm.substitute_mapId hf hkeys (hX x (.head _)),
        ← IRTerm.substitute_mapId hf hkeys (hY y (.head _)), if_neg hne,
        if_neg fun h => hne (IRTerm.mapId_inj hf hxP hyP h)]
      have hbind : Substitution.IdsIn lo hi [(x.substitute s, y.substitute s)] := by
        simpa [Substitution.IdsIn] using ⟨hxP, hyP⟩
      have ih' := ih (composeExtend_closed (·.IdsIn lo hi) hs hbind) (fun x hx => hX x (.tail _ hx))
        (fun y hy => hY y (.tail _ hy))
      rw [composeExtend_mapId hf hs hbind] at ih'
      cases hxs : x.substitute s
      case constant c => exact absurd hxs (hx c)
      all_goals rw [hxs] at ih'; exact ih'
  | case6 xs s ys hnil hcons =>
      cases xs <;> cases ys
      · exact (hnil rfl rfl).elim
      · rfl
      · rfl
      · exact (hcons _ _ _ _ rfl rfl).elim

theorem Literal.unify_mapId (hf : IdInjective f lo hi) {l r : Literal} (hl : l.IdsIn lo hi)
    (hr : r.IdsIn lo hi) : (l.mapId f).unify (r.mapId f) = (l.unify r).map (·.mapId f) := by
  unfold Literal.unify
  simp only [Literal.signature_mapId, Literal.args_mapId]
  split
  · exact unifyArgs_mapId hf (s := []) nofun hl hr
  · rfl

end Equivariance

/-! ## Renaming a clause at another counter -/

/-- How many draws after counter `m` the id `i` was handed out, mod `2 ^ 32`. -/
def drawOffset (m : Nat) (i : UInt32) : Nat := (i.toNat + 2 ^ 32 - m % 2 ^ 32) % 2 ^ 32

/-- `f`, except that the `v` ids drawn from counter `m` on go to the `v` ids drawn
from counter `n` on. -/
def shiftId (f : UInt32 → UInt32) (m n v : Nat) (i : UInt32) : UInt32 :=
  if drawOffset m i < v then UInt32.ofNat (n + drawOffset m i) else f i

section Shift

variable {f : UInt32 → UInt32} {m n v : Nat}

theorem drawOffset_ofNat {j : Nat} (hj : j < 2 ^ 32) : drawOffset m (UInt32.ofNat (m + j)) = j := by
  show ((m + j) % 2 ^ 32 + 2 ^ 32 - m % 2 ^ 32) % 2 ^ 32 = j
  omega

/-- The window drawn from `m` goes to the window drawn from `n`. -/
theorem shiftId_window {j : Nat} (hj : j < v) (hv : v ≤ 2 ^ 32) :
    shiftId f m n v (UInt32.ofNat (m + j)) = UInt32.ofNat (n + j) := by
  simp [shiftId, drawOffset_ofNat (show j < 2 ^ 32 by omega), hj]

/-- Ids drawn before `m`, since `lo`, are left to `f` while all fit in `2 ^ 32` draws. -/
theorem shiftId_before {lo k : Nat} (hk : lo ≤ k) (hkm : k < m) (hv : m + v ≤ lo + 2 ^ 32) :
    shiftId f m n v (UInt32.ofNat k) = f (UInt32.ofNat k) := by
  have hoff : ¬ drawOffset m (UInt32.ofNat k) < v := by
    show ¬ (k % 2 ^ 32 + 2 ^ 32 - m % 2 ^ 32) % 2 ^ 32 < v
    omega
  simp [shiftId, hoff]

end Shift

/-- The variables of a clause are not constants. -/
theorem Clause.isGround_of_mem_vars {c : Clause} {v : IRTerm} (hv : v ∈ c.vars) :
    v.isGround = false := by
  rcases List.mem_append.mp hv with h | h
  · obtain ⟨l, -, hl⟩ := List.mem_flatMap.mp h
    exact (Literal.mem_vars.mp hl).2
  · exact (Literal.mem_vars.mp h).2

theorem IRTerm.rename_of_not_ground {t : IRTerm} (h : t.isGround = false) (n : Nat) :
    t.rename n = (.renamedVariable (UInt32.ofNat n) t, n + 1) := by
  cases t <;> simp_all [IRTerm.rename, IRTerm.isGround, fetchAdd]

theorem Substitution.lookup_map_snd (g : IRTerm → IRTerm) (s : Substitution) (t : IRTerm) :
    Substitution.lookup (s.map fun kv => (kv.1, g kv.2)) t = (s.lookup t).map g := by
  induction s with
  | nil => rfl
  | cons kv s ih => by_cases h : kv.1 = t <;> simp [Substitution.lookup, h, ih]

/-- Renaming variables at counter `n` is renaming them at `m`, then sending the ids
drawn from `m` on to those drawn from `n` on. -/
theorem renameAll_shift {g : UInt32 → UInt32} :
    ∀ (vs : List IRTerm) (m n : Nat), (∀ v ∈ vs, v.isGround = false) →
      (∀ j < vs.length, g (UInt32.ofNat (m + j)) = UInt32.ofNat (n + j)) →
      (renameAll vs n).1 = (renameAll vs m).1.map fun kv => (kv.1, kv.2.mapId g)
  | [], _, _, _, _ => rfl
  | v :: vs, m, n, hv, hg => by
      have hv₀ := hv v (.head _)
      have h₀ : g (UInt32.ofNat m) = UInt32.ofNat n := by simpa using hg 0 (by simp)
      have hrest := renameAll_shift vs (m + 1) (n + 1) (fun w hw => hv w (.tail _ hw))
        fun j hj => by simpa [Nat.add_assoc, Nat.add_comm 1 j] using hg (j + 1) (by simp; omega)
      simp only [renameAll, IRTerm.rename_of_not_ground hv₀, List.map_cons,
        IRTerm.mapId_renamedVariable, h₀, hrest]

theorem renameAll_snd : ∀ (vs : List IRTerm) (n : Nat), (∀ v ∈ vs, v.isGround = false) →
    (renameAll vs n).2 = n + vs.length
  | [], _, _ => rfl
  | v :: vs, n, hv => by
      simp only [renameAll, IRTerm.rename_of_not_ground (hv v (.head _)),
        renameAll_snd vs (n + 1) fun w hw => hv w (.tail _ hw), List.length_cons]
      omega

/-- Renaming a clause draws one id per variable. -/
theorem Clause.renameWithSub_snd (c : Clause) (n : Nat) :
    (c.renameWithSub n).2 = n + c.vars.dedup.length :=
  renameAll_snd _ n fun _ hv => Clause.isGround_of_mem_vars (List.mem_dedup.mp hv)

/-- **Renaming at another counter is renaming ids.** The clause renamed at `n` is the
clause renamed at `m` with the window drawn from `m` sent to the one drawn from `n`. -/
theorem Clause.renameWithSub_shift {g : UInt32 → UInt32} (c : Clause) (m n : Nat)
    (hg : ∀ j < c.vars.dedup.length, g (UInt32.ofNat (m + j)) = UInt32.ofNat (n + j)) :
    (c.renameWithSub n).1.1 = (c.renameWithSub m).1.1.mapId g := by
  have hren := renameAll_shift c.vars.dedup m n
    (fun _ hv => Clause.isGround_of_mem_vars (List.mem_dedup.mp hv)) hg
  have hlit : ∀ l, l = c.head ∨ l ∈ c.body →
      l.substitute (c.renameWithSub n).1.2 = (l.substitute (c.renameWithSub m).1.2).mapId g := by
    intro l hl
    simp only [Literal.substitute, Literal.mapId, List.map_map, Literal.mk.injEq, true_and]
    refine List.map_congr_left fun t ht => ?_
    cases hgr : t.isGround
    · obtain ⟨w, hw⟩ := Option.isSome_iff_exists.mp
        (Clause.lookup_renameWithSub_isSome (n := m) (c.mem_vars_of_literal hl ht hgr))
      have hw' : (c.renameWithSub m).1.2.lookup t = some w := hw
      simp only [Function.comp, IRTerm.substitute_of_not_ground hgr, Clause.renameWithSub, hren,
        Substitution.lookup_map_snd] at hw' ⊢
      simp [hw']
    · simp [Function.comp, IRTerm.substitute_of_isGround hgr, IRTerm.mapId_of_isGround hgr]
  simp only [Clause.renameWithSub_fst, Clause.substitute, Clause.mapId, Clause.mk.injEq,
    List.map_map]
  exact ⟨hlit _ (.inl rfl), List.map_congr_left fun l hl => hlit l (.inr hl)⟩

/-- The literals of a clause renamed at `n` have their ids drawn in `[n, n')`. -/
theorem Clause.renameWithSub_idsIn (c : Clause) (n : Nat) :
    ∀ l, l = (c.renameWithSub n).1.1.head ∨ l ∈ (c.renameWithSub n).1.1.body →
      l.IdsIn n (c.renameWithSub n).2 := by
  intro l hl t ht
  rw [Clause.renameWithSub_fst, Clause.substitute_head, Clause.substitute_body] at hl
  obtain ⟨l₀, hl₀, rfl⟩ : ∃ l₀, (l₀ = c.head ∨ l₀ ∈ c.body) ∧
      l = l₀.substitute (c.renameWithSub n).1.2 := by
    rcases hl with rfl | hl
    · exact ⟨c.head, .inl rfl, rfl⟩
    · obtain ⟨l₀, hl₀, rfl⟩ := List.mem_map.mp hl
      exact ⟨l₀, .inr hl₀, rfl⟩
  rcases Clause.renameWithSub_terms hl₀ t ht with hg | ⟨kv, hkv, rfl⟩
  · obtain ⟨c, rfl⟩ := IRTerm.isGround_iff.mp hg; exact IRTerm.idsIn_constant c
  · exact ((c.renameWithSub_renamedIn n).2 kv hkv).idsIn le_rfl le_rfl

end Modus.Logic

/-! ## The builtins -/

namespace Modus.Builtin

open Modus.Logic

variable {f : UInt32 → UInt32}

@[simp] theorem BuiltinPredicate.select_mapId (p : BuiltinPredicate) (l : Literal) :
    p.select (l.mapId f) = p.select l := by
  simp [BuiltinPredicate.select, List.zip_map_left, List.all_map, Function.comp_def]

@[simp] theorem selectBuiltin_mapId (l : Literal) : selectBuiltin (l.mapId f) = selectBuiltin l := by
  simp [selectBuiltin]

theorem argAt_mapId (l : Literal) (i : Nat) : argAt (l.mapId f) i = (·.mapId f) <$> argAt l i := by
  simp only [argAt, Literal.args_mapId, List.getElem?_map]
  cases l.args[i]? <;> rfl

theorem constantArgApply_mapId (l : Literal) :
    constantArgApply (l.mapId f) = (constantArgApply l).map (Option.map (·.mapId f)) := by
  unfold constantArgApply
  rw [argAt_mapId, bind_map_left]
  rcases argAt l 0 with e | t
  · rfl
  · cases t <;> rfl

/-- A `string_concat` mode reads the arguments only through `as_constant`, so it
fabricates the same head from a renamed literal. -/
theorem BuiltinPredicate.apply_mapId_of_stringConcat {p : BuiltinPredicate}
    (hp : p.name = "string_concat") (l : Literal) : p.apply (l.mapId f) = p.apply l := by
  obtain rfl | rfl | rfl := name_eq_stringConcat.mp hp <;>
    simp only [apply, stringConcat1Apply, stringConcat2Apply, stringConcat3Apply, argAt_mapId,
      bind_map_left, IRTerm.asConstant_mapId]

/-- A builtin fabricates from a renamed literal the head it fabricates from the
literal, renamed: a ground `string_concat` head, or the literal itself for `run`
and `from`. -/
theorem BuiltinPredicate.apply_mapId (p : BuiltinPredicate) (l : Literal) :
    p.apply (l.mapId f) = (p.apply l).map (Option.map (·.mapId f)) := by
  by_cases hp : p.name = "string_concat"
  · rw [apply_mapId_of_stringConcat hp]
    rcases happ : p.apply l with e | _ | h
    · rfl
    · rfl
    · rcases apply_eq_ok_some happ with ⟨-, a, b, rfl⟩ | ⟨hrf, -⟩
      · rfl
      · rcases hrf with rfl | rfl <;> exact absurd hp (by decide)
  · have hrf : p = run ∨ p = «from» := by cases p <;> simp_all [name]
    rcases hrf with rfl | rfl <;> exact constantArgApply_mapId l

/-- **The builtins commute with renaming ids.** -/
theorem BuiltinPredicate.resolvent_mapId {lo hi : Nat} (hf : IdInjective f lo hi)
    (p : BuiltinPredicate) {l : Literal} (hl : l.IdsIn lo hi) :
    p.resolvent (l.mapId f) =
      (p.resolvent l).map (Option.map fun r => (r.1.mapId f, r.2.mapId f)) := by
  unfold resolvent
  rw [apply_mapId]
  rcases happ : p.apply l with e | _ | h
  · rfl
  · rfl
  · have hh : h.IdsIn lo hi := by
      rcases apply_eq_ok_some happ with ⟨-, a, b, rfl⟩ | ⟨-, rfl, -⟩
      · intro t ht
        obtain ⟨c, rfl⟩ := IRTerm.isGround_iff.mp (stringConcatResult_isGround a b _ t ht)
        exact IRTerm.idsIn_constant c
      · exact hl
    simp only [Except.map, Option.map_some', Option.some_bind, Literal.unify_mapId hf hh hl]
    cases h.unify l <;> rfl

/-- A builtin resolvent of a literal with ids in a window has its ids there too. -/
theorem BuiltinPredicate.resolvent_idsIn {lo hi : Nat} {p : BuiltinPredicate} {l head : Literal}
    {mgu : Substitution} (h : p.resolvent l = .ok (some (head, mgu))) (hl : l.IdsIn lo hi) :
    head.IdsIn lo hi ∧ mgu.IdsIn lo hi := by
  obtain ⟨happ, hu⟩ := resolvent_ok_some.mp h
  have hhead : head.IdsIn lo hi := by
    rcases apply_eq_ok_some happ with ⟨-, a, b, rfl⟩ | ⟨-, rfl, -⟩
    · intro t ht
      obtain ⟨c, rfl⟩ := IRTerm.isGround_iff.mp (stringConcatResult_isGround a b _ t ht)
      exact IRTerm.idsIn_constant c
    · exact hl
  exact ⟨hhead, Literal.unify_closed _ hu hhead hl⟩

end Modus.Builtin
