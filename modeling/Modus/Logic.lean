import Mathlib

/-!
# The intermediate language of Modus

`logic.rs` defines the terms, literals and clauses that the SLD engine works on,
and the process-wide counter that every fresh variable takes its id from.

A term is flat: a constant, a user variable, an auxiliary variable made by
lowering, or a renamed copy of another variable. There are no function symbols,
so a term is either ground or a variable, and substitution never has to look
inside a term.

The counter `AVAILABLE_VARIABLE_INDEX` is an `AtomicU32` bumped by
`fetch_add(1)`. We represent it by the number of draws made since program start;
the atomic's value, and so the id handed out, is that number mod `2 ^ 32`
(`fetchAdd_fst`). Every operation that draws ids threads the counter explicitly.

## Main results

* `IRTerm.vars_eq_nil_iff` — a term has no variables iff it is a constant.
* `Literal.isGround_iff` — a literal is ground iff every argument is.
* `IRTerm.rename_snd`, `aux_snd` — each fresh term costs exactly one draw.
* `IRTerm.RenamedIn.ne` — a variable renamed after a window of draws is none of
  the terms drawn in it, while the draws fit in `2 ^ 32`.
-/

namespace Modus.Logic

/-! ## Terms -/

/-- `IRTerm`. Ids are the `u32` values the counter hands out. -/
inductive IRTerm where
  | constant (c : String)
  | userVariable (name : String)
  | auxiliaryVariable (index : UInt32)
  | renamedVariable (index : UInt32) (original : IRTerm)
  deriving DecidableEq, Repr

namespace IRTerm

/-- `Ground for IRTerm`: only constants are ground. -/
def isGround : IRTerm → Bool
  | constant _ => true
  | _ => false

/-- `IRTerm::variables`, as a list: the term itself unless it is a constant. -/
def vars (t : IRTerm) : List IRTerm := if t.isGround then [] else [t]

/-- `IRTerm::as_constant`. -/
def asConstant : IRTerm → Option String
  | constant c => some c
  | _ => none

@[simp] theorem isGround_constant (c : String) : (constant c).isGround = true := rfl

@[simp] theorem asConstant_constant (c : String) : (constant c).asConstant = some c := rfl

theorem isGround_iff {t : IRTerm} : t.isGround = true ↔ ∃ c, t = constant c := by
  cases t <;> simp [isGround]

theorem asConstant_eq_some {t : IRTerm} {c : String} :
    t.asConstant = some c ↔ t = constant c := by
  cases t <;> simp [asConstant]

theorem asConstant_eq_none {t : IRTerm} : t.asConstant = none ↔ t.isGround = false := by
  cases t <;> simp [asConstant, isGround]

theorem vars_eq_nil_iff {t : IRTerm} : t.vars = [] ↔ t.isGround = true := by
  unfold vars; split <;> simp_all

theorem mem_vars {t v : IRTerm} : v ∈ t.vars ↔ v = t ∧ t.isGround = false := by
  unfold vars; split <;> simp_all

end IRTerm

/-! ## Literals and clauses -/

/-- The part of `SpannedPosition` the engine reads: the offset and length of the
diagnostic label. -/
structure SpannedPosition where
  offset : Nat
  length : Nat
  deriving DecidableEq, Repr

/-- The value of a term under a ground assignment `θ` of strings to variables: a
constant is itself. -/
def IRTerm.ground (θ : IRTerm → String) : IRTerm → String
  | .constant c => c
  | t => θ t

@[simp] theorem IRTerm.ground_constant (θ : IRTerm → String) (c : String) :
    (IRTerm.constant c).ground θ = c := rfl

@[simp] theorem IRTerm.ground_userVariable (θ : IRTerm → String) (v : String) :
    (IRTerm.userVariable v).ground θ = θ (.userVariable v) := rfl

@[simp] theorem IRTerm.ground_auxiliaryVariable (θ : IRTerm → String) (i : UInt32) :
    (IRTerm.auxiliaryVariable i).ground θ = θ (.auxiliaryVariable i) := rfl

/-- `Literal<IRTerm>`. `predicate` is the string inside `Predicate`. The position
takes part in equality, as the derived `PartialEq` of the source does. -/
structure Literal where
  position : Option SpannedPosition
  predicate : String
  args : List IRTerm
  deriving DecidableEq, Repr

/-- `Signature(Predicate, u32)`: predicate name and arity. -/
structure Signature where
  predicate : String
  arity : Nat
  deriving DecidableEq, Repr

/-- `Clause<IRTerm>`: a head and a body; a fact has an empty body. -/
structure Clause where
  head : Literal
  body : List Literal
  deriving DecidableEq, Repr

namespace Literal

/-- `Literal::signature`. -/
def signature (l : Literal) : Signature := ⟨l.predicate, l.args.length⟩

/-- `Literal::variables`, as a list with repetitions. -/
def vars (l : Literal) : List IRTerm := l.args.flatMap IRTerm.vars

/-- `Ground for Literal`: no variables. -/
def isGround (l : Literal) : Bool := l.vars.isEmpty

/-- `Literal::eq_ignoring_position`. -/
def eqIgnoringPosition (l r : Literal) : Prop := l.predicate = r.predicate ∧ l.args = r.args

instance (l r : Literal) : Decidable (l.eqIgnoringPosition r) :=
  inferInstanceAs (Decidable (_ ∧ _))

theorem isGround_iff {l : Literal} : l.isGround = true ↔ ∀ t ∈ l.args, t.isGround = true := by
  simp [isGround, vars, List.flatMap_eq_nil_iff, IRTerm.vars_eq_nil_iff]

theorem mem_vars {l : Literal} {v : IRTerm} :
    v ∈ l.vars ↔ v ∈ l.args ∧ v.isGround = false := by
  simp only [vars, List.mem_flatMap, IRTerm.mem_vars]
  exact ⟨fun ⟨_, ha, rfl, hg⟩ => ⟨ha, hg⟩, fun ⟨ha, hg⟩ => ⟨v, ha, rfl, hg⟩⟩

end Literal

/-- `Clause::variables`: body variables, then head variables. -/
def Clause.vars (c : Clause) : List IRTerm :=
  c.body.flatMap Literal.vars ++ c.head.vars

/-! ## The fresh-id counter -/

/-- `AVAILABLE_VARIABLE_INDEX.fetch_add(1, SeqCst)`, on the counter `n`, the number of
draws made since program start: the `u32` handed out, and the counter after the
draw. The `u32` wraps, so the id is the draw number mod `2 ^ 32`. -/
def fetchAdd (n : Nat) : UInt32 × Nat := (UInt32.ofNat n, n + 1)

theorem fetchAdd_fst (n : Nat) : (fetchAdd n).1.toNat = n % 2 ^ 32 := rfl

/-- `IRTerm::rename`: a constant is kept, any other term gets a fresh id. -/
def IRTerm.rename (t : IRTerm) (n : Nat) : IRTerm × Nat :=
  match t with
  | .constant _ => (t, n)
  | _ => (.renamedVariable (fetchAdd n).1 t, (fetchAdd n).2)

/-- `Auxiliary::aux` for `IRTerm`: a fresh auxiliary variable. -/
def aux (n : Nat) : IRTerm × Nat :=
  (.auxiliaryVariable (fetchAdd n).1, (fetchAdd n).2)

theorem IRTerm.rename_snd {t : IRTerm} (h : t.isGround = false) (n : Nat) :
    (t.rename n).2 = n + 1 := by
  cases t <;> simp_all [IRTerm.rename, IRTerm.isGround, fetchAdd]

@[simp] theorem aux_snd (n : Nat) : (aux n).2 = n + 1 := rfl

theorem aux_fst (n : Nat) : (aux n).1 = .auxiliaryVariable (UInt32.ofNat n) := rfl

/-- Within `2 ^ 32` draws, the ids handed out are distinct. -/
theorem ofNat_injective_window {lo k k' : Nat} (hk : lo ≤ k) (hk' : lo ≤ k')
    (hk₂ : k < lo + 2 ^ 32) (hk'₂ : k' < lo + 2 ^ 32) (h : UInt32.ofNat k = UInt32.ofNat k') :
    k = k' := by
  have hmod : k % 2 ^ 32 = k' % 2 ^ 32 := congrArg UInt32.toNat h
  omega

/-! ## Windows of the counter -/

/-- The term is a constant, or a variable renamed with an id drawn at a counter in
`[a, b)`: what renaming a clause while the counter goes from `a` to `b` puts in it. -/
def IRTerm.RenamedIn (a b : Nat) (t : IRTerm) : Prop :=
  t.isGround = true ∨ ∃ k v, a ≤ k ∧ k < b ∧ t = .renamedVariable (UInt32.ofNat k) v

/-- If the term is a renamed variable, its id was drawn at a counter in `[lo, hi)`. -/
def IRTerm.IdsIn (lo hi : Nat) (t : IRTerm) : Prop :=
  ∀ i v, t = .renamedVariable i v → ∃ k, lo ≤ k ∧ k < hi ∧ i = UInt32.ofNat k

namespace IRTerm

variable {a b lo hi : Nat} {t s : IRTerm}

theorem rename_renamedIn (t : IRTerm) (n : Nat) : (t.rename n).1.RenamedIn n (t.rename n).2 := by
  cases t
  case constant => exact .inl rfl
  all_goals exact .inr ⟨n, _, le_rfl, Nat.lt_succ_self n, rfl⟩

theorem le_rename_snd (t : IRTerm) (n : Nat) : n ≤ (t.rename n).2 := by
  cases t <;> simp [rename, fetchAdd]

theorem RenamedIn.mono {a' b' : Nat} (h : t.RenamedIn a b) (ha : a' ≤ a) (hb : b ≤ b') :
    t.RenamedIn a' b' :=
  h.imp_right fun ⟨k, v, h₁, h₂, ht⟩ => ⟨k, v, by omega, by omega, ht⟩

theorem RenamedIn.idsIn (h : t.RenamedIn a b) (hlo : lo ≤ a) (hhi : b ≤ hi) : t.IdsIn lo hi := by
  rintro i v rfl
  rcases h with h | ⟨k, w, h₁, h₂, h⟩
  · cases h
  · exact ⟨k, by omega, by omega, (renamedVariable.inj h).1⟩

theorem IdsIn.mono {lo' hi' : Nat} (h : t.IdsIn lo hi) (hlo : lo' ≤ lo) (hhi : hi ≤ hi') :
    t.IdsIn lo' hi' := fun i v ht =>
  (h i v ht).imp fun _ ⟨h₁, h₂, hi⟩ => ⟨by omega, by omega, hi⟩

@[simp] theorem idsIn_constant (c : String) : (constant c).IdsIn lo hi := nofun

/-- **Renamed apart.** A variable renamed in `[a, b)` is no term whose ids were drawn
in `[lo, hi)` before `a`, while all of them fit in `2 ^ 32` draws. -/
theorem RenamedIn.ne (h : t.RenamedIn a b) (hg : t.isGround = false) (hs : s.IdsIn lo hi)
    (ha : hi ≤ a) (hfit : b ≤ lo + 2 ^ 32) : t ≠ s := by
  rcases h with h | ⟨k, v, h₁, h₂, rfl⟩
  · simp [h] at hg
  · rintro rfl
    obtain ⟨k', h₁', h₂', hk⟩ := hs _ v rfl
    have := ofNat_injective_window h₁' (show lo ≤ k by omega) (by omega) (by omega) hk.symm
    omega

end IRTerm

/-! ## Computations that may fail -/

theorem bind_eq_ok {ε α β : Type} {x : Except ε α} {f : α → Except ε β} {b : β} :
    x >>= f = .ok b ↔ ∃ a, x = .ok a ∧ f a = .ok b := by
  cases x <;> simp [bind, Except.bind]

@[simp] theorem ok_bind {ε α β : Type} (a : α) (f : α → Except ε β) :
    (Except.ok a >>= f) = f a := rfl

@[simp] theorem error_bind {ε α β : Type} (e : ε) (f : α → Except ε β) :
    (Except.error e >>= f) = .error e := rfl

theorem map_eq_error {ε α β : Type} (f : α → β) (x : Except ε α) (e : ε) :
    f <$> x = .error e ↔ x = .error e := by
  cases x <;> simp [Functor.map, Except.map]

/-- `mapM` in `Except` succeeds exactly when the function succeeds on every input,
and relates each input to its output. -/
theorem mapM_eq_ok {α β ε : Type} {f : α → Except ε β} :
    ∀ {xs : List α} {ys : List β}, xs.mapM f = .ok ys ↔ List.Forall₂ (fun x y => f x = .ok y) xs ys
  | [], ys => by rw [List.mapM_nil]; cases ys <;> simp [pure, Except.pure]
  | x :: xs, ys => by
      rw [List.mapM_cons, bind_eq_ok]
      constructor
      · rintro ⟨y, hy, h⟩
        obtain ⟨ys', hys', h⟩ := bind_eq_ok.mp h
        cases h
        exact .cons hy (mapM_eq_ok.mp hys')
      · intro h
        cases h with
        | cons hy hys => exact ⟨_, hy, bind_eq_ok.mpr ⟨_, mapM_eq_ok.mpr hys, rfl⟩⟩

theorem mapM_forall₂ {α β ε : Type} {f : α → Except ε β} {xs : List α} {ys : List β}
    (h : xs.mapM f = .ok ys) : List.Forall₂ (fun x y => f x = .ok y) xs ys :=
  mapM_eq_ok.mp h

/-- `mapM` in `Except` fails exactly when the function fails on some input. -/
theorem mapM_isError {α β ε : Type} {f : α → Except ε β} :
    ∀ {xs : List α}, (∃ e, xs.mapM f = .error e) ↔ ∃ x ∈ xs, ∃ e, f x = .error e
  | [] => by rw [List.mapM_nil]; simp [pure, Except.pure]
  | x :: xs => by
      have ih := @mapM_isError _ _ _ f xs
      rw [List.mapM_cons]
      rcases hx : f x with e | y
      · exact ⟨fun _ => ⟨x, .head _, e, hx⟩, fun _ => ⟨e, rfl⟩⟩
      · rw [ok_bind]
        rcases hxs : xs.mapM f with e | ys
        · refine ⟨fun _ => ?_, fun _ => ⟨e, rfl⟩⟩
          obtain ⟨x', hx', e', h'⟩ := ih.mp ⟨e, hxs⟩
          exact ⟨x', .tail _ hx', e', h'⟩
        · refine ⟨fun ⟨_, h⟩ => (by cases h), fun ⟨x', hx', e', h'⟩ => ?_⟩
          rcases List.mem_cons.mp hx' with rfl | hx'
          · rw [hx] at h'; cases h'
          · obtain ⟨_, h''⟩ := ih.mpr ⟨x', hx', e', h'⟩
            rw [hxs] at h''; cases h''

/-! ## Lists related element by element -/

/-- An element of the left list of `Forall₂` has a partner in the right list. -/
theorem Forall₂_mem_left {α β : Type} {R : α → β → Prop} {xs : List α} {ys : List β}
    (h : List.Forall₂ R xs ys) {x : α} (hx : x ∈ xs) : ∃ y ∈ ys, R x y := by
  induction h with
  | nil => cases hx
  | @cons x' y xs ys hxy _ ih =>
      rcases List.mem_cons.mp hx with rfl | hx
      · exact ⟨y, List.mem_cons_self _ _, hxy⟩
      · obtain ⟨y', hy', hr⟩ := ih hx
        exact ⟨y', List.mem_cons_of_mem _ hy', hr⟩

/-- An element of the right list of `Forall₂` has a partner in the left list. -/
theorem Forall₂_mem_right {α β : Type} {R : α → β → Prop} {xs : List α} {ys : List β}
    (h : List.Forall₂ R xs ys) {y : β} (hy : y ∈ ys) : ∃ x ∈ xs, R x y :=
  Forall₂_mem_left (List.Forall₂.flip (R := flip R) h) hy

end Modus.Logic
