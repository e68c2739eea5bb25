import Modus.Translate.Lowering

/-!
# The meaning of a format string

A format string stands for its interpolation: the text outside the expansions,
with each `\$` read as `$`, and each expansion `${name}` replaced by the value of
`name`. `convert_format_string` builds that value with a chain of `string_concat`
literals over fresh auxiliary variables. Reading `string_concat(a, b, c)` as
`c = a ++ b`, the chain forces its last variable to the interpolation
(`convertFormatString_sound`), and when the ids it draws are distinct, the chain's
variables can be given the values of the prefixes (`convertFormatString_complete`).

A well-formed format string is one in which every `${` not escaped as `\${` starts
an expansion `${name}`; on any other, the loop stops at the first `${` it cannot
read and drops the rest of the string.

The auxiliary variables a lowering draws between counters `lo` and `hi` form a
window; two windows that fit in `2 ^ 32` draws share no variable, and an
assignment changed only inside a window leaves every term outside it alone.

## Main results

* `interpolate_split` — interpolation follows the loop: a segment, then an expansion.
* `convertLoop_sound`, `convertLoop_complete` — the loop's chain, pass by pass.
* `convertFormatString_sound`, `convertFormatString_complete`.
* `convertLoop_unique` — each literal fixes its third argument, so the chain has at
  most one solution.
* `convertFormatString_computes_interpolation` — one `string_concat` per draw; at
  most one solution, which gives the interpolation; within `2 ^ 32` draws, the third
  arguments distinct and a solution.
* `convertFormatString_wraps` — past `2 ^ 32` draws the chain can have none.
-/

namespace Modus.Translate

open Modus.Logic

/-! ## Interpolation -/

/-- The interpolation of a format string under `θ`, from the spec (§4.3): `\$` is a
`$`, an expansion `${name}` is the value of `name`, anything else is itself. -/
def interpolate (θ : String → String) : List Char → List Char
  | '\\' :: '$' :: cs => '$' :: interpolate θ cs
  | '$' :: '{' :: cs =>
      match hexp : expansion ('$' :: '{' :: cs) with
      | some (rest, name) =>
          have := length_expansion_lt hexp
          (θ ⟨name⟩).data ++ interpolate θ rest
      | none => '$' :: '{' :: interpolate θ cs
  | c :: cs => c :: interpolate θ cs
  | [] => []
termination_by cs => cs.length

/-- Every `${` not escaped as `\${` starts an expansion `${name}`. -/
def wellFormed : List Char → Bool
  | '\\' :: '$' :: cs => wellFormed cs
  | '$' :: '{' :: cs =>
      match hexp : expansion ('$' :: '{' :: cs) with
      | some (rest, _) =>
          have := length_expansion_lt hexp
          wellFormed rest
      | none => false
  | _ :: cs => wellFormed cs
  | [] => true
termination_by cs => cs.length

section Chars

variable {θ : String → String} {c : Char} {l cs rest name : List Char}

theorem replaceEscapes_cons (h : ∀ t, c = '\\' → l ≠ '$' :: t) :
    replaceEscapes (c :: l) = c :: replaceEscapes l := by
  rw [replaceEscapes]; exact h

theorem interpolate_cons (h₁ : ∀ t, c = '\\' → l ≠ '$' :: t) (h₂ : ∀ t, c = '$' → l ≠ '{' :: t) :
    interpolate θ (c :: l) = c :: interpolate θ l := by
  rw [interpolate] <;> assumption

theorem wellFormed_cons (h₁ : ∀ t, c = '\\' → l ≠ '$' :: t) (h₂ : ∀ t, c = '$' → l ≠ '{' :: t) :
    wellFormed (c :: l) = wellFormed l := by
  rw [wellFormed] <;> assumption

theorem interpolate_expansion (h : expansion cs = some (rest, name)) :
    interpolate θ cs = (θ ⟨name⟩).data ++ interpolate θ rest := by
  obtain ⟨rfl, -⟩ := expansion_append h
  rw [interpolate]
  split <;> simp_all

theorem wellFormed_expansion (h : expansion cs = some (rest, name)) :
    wellFormed cs = wellFormed rest := by
  obtain ⟨rfl, -⟩ := expansion_append h
  rw [wellFormed]
  split <;> simp_all

/-- A well-formed `${` starts an expansion, and what follows it is well formed. -/
theorem wellFormed_dollar (h : wellFormed ('$' :: '{' :: cs)) :
    ∃ rest name, expansion ('$' :: '{' :: cs) = some (rest, name) ∧ wellFormed rest := by
  rw [wellFormed] at h
  split at h
  · exact ⟨_, _, ‹_›, h⟩
  · cases h

end Chars

/-! ## The outside segment -/

section Outside

variable {θ : String → String} {cs t : List Char} {c : Char}

/-- A segment starts with what the input starts with. -/
theorem outsideFormatExpansion_snd_cons (h : (outsideFormatExpansion cs).2 = c :: t) :
    ∃ t', cs = c :: t' :=
  ⟨t ++ (outsideFormatExpansion cs).1, (outsideFormatExpansion_append cs).symm.trans (by rw [h]; rfl)⟩

/-- The segment stops at the end of the input or at an unescaped `${`. -/
theorem outsideFormatExpansion_fst (cs : List Char) :
    (outsideFormatExpansion cs).1 = [] ∨ ∃ t, (outsideFormatExpansion cs).1 = '$' :: '{' :: t := by
  induction cs using outsideFormatExpansion.induct <;> simp_all [outsideFormatExpansion]

/-- The escapes of a segment are read as interpolation reads them. -/
theorem replaceEscapes_segment_cons
    (h₁ : ∀ t, c = '\\' → cs ≠ '$' :: t) :
    replaceEscapes (c :: (outsideFormatExpansion cs).2) =
      c :: replaceEscapes (outsideFormatExpansion cs).2 :=
  replaceEscapes_cons fun t hc hs => by
    obtain ⟨t', rfl⟩ := outsideFormatExpansion_snd_cons hs
    exact h₁ t' hc rfl

/-- **Interpolation follows the loop**: the segment with its escapes read, then
the interpolation of the rest. -/
theorem interpolate_split (θ : String → String) (cs : List Char) :
    interpolate θ cs = replaceEscapes (outsideFormatExpansion cs).2 ++
      interpolate θ (outsideFormatExpansion cs).1 := by
  induction cs using outsideFormatExpansion.induct with
  | case1 cs ih => rw [interpolate, outsideFormatExpansion, replaceEscapes, ih]; rfl
  | case2 cs => simp [outsideFormatExpansion, replaceEscapes]
  | case3 c cs h₁ h₂ ih =>
      rw [interpolate_cons h₁ h₂, outsideFormatExpansion, replaceEscapes_segment_cons h₁, ih]
      · rfl
      all_goals assumption
  | case4 => rfl

/-- A segment holds no unescaped `${`, so well-formedness is decided by the rest. -/
theorem wellFormed_split (cs : List Char) :
    wellFormed cs = wellFormed (outsideFormatExpansion cs).1 := by
  induction cs using outsideFormatExpansion.induct with
  | case1 cs ih => rw [wellFormed, outsideFormatExpansion, ih]
  | case2 cs => rw [outsideFormatExpansion]
  | case3 c cs h₁ h₂ ih =>
      rw [wellFormed_cons h₁ h₂, outsideFormatExpansion, ih] <;> assumption
  | case4 => rfl

/-- After the segment of a well-formed string, the input is used up or an
expansion follows, with a well-formed rest. -/
theorem wellFormed_rest (h : wellFormed cs) :
    (outsideFormatExpansion cs).1 = [] ∨ ∃ rest name,
      expansion (outsideFormatExpansion cs).1 = some (rest, name) ∧ wellFormed rest := by
  rw [wellFormed_split] at h
  rcases outsideFormatExpansion_fst cs with h₀ | ⟨t, ht⟩
  · exact .inl h₀
  · rw [ht] at h ⊢
    exact .inr (wellFormed_dollar h)

theorem wellFormed_of_expansion {rest name : List Char} (hwf : wellFormed cs)
    (hexp : expansion (outsideFormatExpansion cs).1 = some (rest, name)) : wellFormed rest := by
  rcases wellFormed_rest hwf with h | ⟨rest', name', h, hrest⟩
  · rw [h] at hexp; cases hexp
  · rw [h] at hexp; cases hexp; exact hrest

theorem outsideFormatExpansion_fst_eq_nil (hwf : wellFormed cs)
    (hexp : expansion (outsideFormatExpansion cs).1 = none) : (outsideFormatExpansion cs).1 = [] := by
  rcases wellFormed_rest hwf with h | ⟨rest', name', h, -⟩
  · exact h
  · rw [h] at hexp; cases hexp

end Outside

/-! ## Reading literals -/

/-- A ground atom holds in the interpretation `I`, except that
`string_concat(a, b, c)` is read as `c = a ++ b`, the relation of the builtin. -/
def AtomHolds (I : String → List String → Prop) (p : String) : List String → Prop
  | [a, b, c] => if p = "string_concat" then c = a ++ b else I p [a, b, c]
  | args => I p args

/-- A literal holds in `I` under the assignment `ρ` of strings to variables. -/
def LitHolds (I : String → List String → Prop) (ρ : IRTerm → String) (l : Literal) : Prop :=
  AtomHolds I l.predicate (l.args.map (·.ground ρ))

/-- The strings `ρ` gives the user variables. -/
def userAssignment (ρ : IRTerm → String) (v : String) : String := ρ (.userVariable v)

@[simp] theorem litHolds_concatLiteral {I : String → List String → Prop} {ρ : IRTerm → String}
    {a b c : IRTerm} :
    LitHolds I ρ (concatLiteral a b c) ↔ c.ground ρ = a.ground ρ ++ b.ground ρ := by
  simp [LitHolds, AtomHolds, concatLiteral]

/-- A literal holds under two assignments that agree on its arguments alike. -/
theorem litHolds_congr {I : String → List String → Prop} {ρ ρ' : IRTerm → String} {l : Literal}
    (h : ∀ t ∈ l.args, t.ground ρ' = t.ground ρ) : LitHolds I ρ' l ↔ LitHolds I ρ l := by
  rw [LitHolds, LitHolds, List.map_congr_left h]

/-! ## Windows of fresh variables -/

/-- `t` is an auxiliary variable drawn at a counter in `[lo, hi)`. -/
def InWindow (lo hi : Nat) (t : IRTerm) : Prop :=
  ∃ k, lo ≤ k ∧ k < hi ∧ t = .auxiliaryVariable (UInt32.ofNat k)

/-- `t` is no auxiliary variable, or one drawn in `[lo, hi)`. -/
def DrawnIn (lo hi : Nat) (t : IRTerm) : Prop :=
  (∀ i, t ≠ .auxiliaryVariable i) ∨ InWindow lo hi t

/-- Every argument of every literal of `ls` is drawn in `[lo, hi)`. -/
def LitsDrawnIn (lo hi : Nat) (ls : List Literal) : Prop :=
  ∀ l ∈ ls, ∀ t ∈ l.args, DrawnIn lo hi t

/-- `ρ'` is `ρ` but for the auxiliary variables drawn in `[lo, hi)`. -/
def AgreeOff (lo hi : Nat) (ρ ρ' : IRTerm → String) : Prop :=
  ∀ t, ¬ InWindow lo hi t → ρ' t = ρ t

section Windows

variable {lo hi lo' hi' k k' : Nat} {t : IRTerm} {ρ ρ' ρ₁ ρ₂ : IRTerm → String}

theorem InWindow.mono (h : InWindow lo' hi' t) (hlo : lo ≤ lo') (hhi : hi' ≤ hi) :
    InWindow lo hi t := by
  obtain ⟨k, h₁, h₂, rfl⟩ := h
  exact ⟨k, by omega, by omega, rfl⟩

theorem DrawnIn.mono (h : DrawnIn lo' hi' t) (hlo : lo ≤ lo') (hhi : hi' ≤ hi) :
    DrawnIn lo hi t :=
  h.imp_right fun h => h.mono hlo hhi

theorem LitsDrawnIn.mono {ls : List Literal} (h : LitsDrawnIn lo' hi' ls) (hlo : lo ≤ lo')
    (hhi : hi' ≤ hi) : LitsDrawnIn lo hi ls :=
  fun l hl t ht => (h l hl t ht).mono hlo hhi

theorem drawnIn_aux (hk : lo ≤ k) (hk' : k < hi) :
    DrawnIn lo hi (.auxiliaryVariable (UInt32.ofNat k)) :=
  .inr ⟨k, hk, hk', rfl⟩

@[simp] theorem drawnIn_constant (c : String) : DrawnIn lo hi (.constant c) :=
  .inl fun _ => IRTerm.noConfusion

@[simp] theorem drawnIn_userVariable (v : String) : DrawnIn lo hi (.userVariable v) :=
  .inl fun _ => IRTerm.noConfusion

/-- The variable drawn at `k` is in no window of the next `2 ^ 32 - 1` draws after it. -/
theorem not_inWindow_aux (hk : k < lo) (hhi : hi ≤ k + 2 ^ 32) :
    ¬ InWindow lo hi (.auxiliaryVariable (UInt32.ofNat k)) := by
  rintro ⟨k', h₁, h₂, h⟩
  have := ofNat_injective_window le_rfl (by omega) (by omega) (by omega)
    (IRTerm.auxiliaryVariable.inj h)
  omega

/-- Two windows that fit in `2 ^ 32` draws share no variable. -/
theorem DrawnIn.not_inWindow (h : DrawnIn lo hi t) (hsep : hi ≤ lo') (hfit : hi' ≤ lo + 2 ^ 32) :
    ¬ InWindow lo' hi' t := by
  rcases h with h | ⟨k, h₁, h₂, rfl⟩
  · rintro ⟨k', -, -, rfl⟩; exact h _ rfl
  · exact fun ⟨k', h₁', h₂', h⟩ => absurd (ofNat_injective_window h₁ (by omega)
      (by omega) (by omega) (IRTerm.auxiliaryVariable.inj h)) (by omega)

theorem AgreeOff.refl (ρ : IRTerm → String) : AgreeOff lo hi ρ ρ := fun _ _ => rfl

/-- A change inside a window is a change inside any window around it. -/
theorem AgreeOff.mono (h : AgreeOff lo' hi' ρ ρ') (hlo : lo ≤ lo') (hhi : hi' ≤ hi) :
    AgreeOff lo hi ρ ρ' :=
  fun t ht => h t fun h' => ht (h'.mono hlo hhi)

/-- Changes inside two adjacent windows are a change inside their union. -/
theorem AgreeOff.trans (h₁ : AgreeOff lo k ρ ρ₁) (h₂ : AgreeOff k hi ρ₁ ρ₂) (hlo : lo ≤ k)
    (hhi : k ≤ hi) : AgreeOff lo hi ρ ρ₂ := fun t ht =>
  (h₂ t fun h => ht (h.mono hlo le_rfl)).trans (h₁ t fun h => ht (h.mono le_rfl hhi))

/-- A term outside the window has the same value before and after. -/
theorem AgreeOff.ground (h : AgreeOff lo hi ρ ρ') (ht : ¬ InWindow lo hi t) :
    t.ground ρ' = t.ground ρ := by
  cases t <;> simp only [IRTerm.ground, h _ ht]

/-- A window holds no user variable. -/
theorem AgreeOff.userVariable (h : AgreeOff lo hi ρ ρ') (v : String) :
    ρ' (.userVariable v) = ρ (.userVariable v) :=
  h _ fun ⟨_, _, _, h⟩ => IRTerm.noConfusion h

theorem AgreeOff.userAssignment (h : AgreeOff lo hi ρ ρ') :
    userAssignment ρ' = userAssignment ρ :=
  funext h.userVariable

/-- Giving the variable drawn at `k` a value changes nothing outside `[k, k + 1)`. -/
theorem agreeOff_update (ρ : IRTerm → String) (k : Nat) (v : String) :
    AgreeOff k (k + 1) ρ (Function.update ρ (.auxiliaryVariable (UInt32.ofNat k)) v) :=
  fun _ ht => Function.update_noteq (fun h => ht ⟨k, le_rfl, Nat.lt_succ_self k, h⟩) _ _

/-- A term drawn in an earlier window keeps its value. -/
theorem AgreeOff.ground_of_drawnIn (h : AgreeOff lo' hi' ρ ρ') (ht : DrawnIn lo hi t)
    (hsep : hi ≤ lo') (hfit : hi' ≤ lo + 2 ^ 32) : t.ground ρ' = t.ground ρ :=
  h.ground (ht.not_inWindow hsep hfit)

/-- Literals drawn in an earlier window keep their truth. -/
theorem AgreeOff.litHolds {I : String → List String → Prop} {ls : List Literal}
    (h : AgreeOff lo' hi' ρ ρ') (hls : LitsDrawnIn lo hi ls) (hsep : hi ≤ lo')
    (hfit : hi' ≤ lo + 2 ^ 32) (hρ : ∀ l ∈ ls, LitHolds I ρ l) : ∀ l ∈ ls, LitHolds I ρ' l :=
  fun l hl => (litHolds_congr fun t ht => h.ground_of_drawnIn (hls l hl t ht) hsep hfit).mpr (hρ l hl)

end Windows

/-! ## The loop of `convert_format_string` -/

section Loop

variable {I : String → List String → Prop}

/-- **The chain is sound.** On a well-formed input, whenever the loop's literals
hold, its last variable is the previous one followed by the interpolation. -/
theorem convertLoop_sound {ρ : IRTerm → String} (curr : List Char) (prev : IRTerm)
    (lits : List Literal) (n : Nat) (hwf : wellFormed curr)
    (hbody : ∀ l ∈ (convertLoop curr prev lits n).1.1, LitHolds I ρ l) :
    ((convertLoop curr prev lits n).1.2.ground ρ).data =
      (prev.ground ρ).data ++ interpolate (userAssignment ρ) curr := by
  induction curr, prev, lits, n using convertLoop_induction with
  | nil => simp [interpolate]
  | pass curr prev lits n rest name hne hexp ih =>
      rw [convertLoop_expansion hne hexp] at hbody ⊢
      have ha := hbody _ (mem_convertLoop (List.mem_append_right _ (List.mem_cons_self _ _)))
      have hb := hbody _ (mem_convertLoop (List.mem_append_right _ (.tail _ (List.mem_cons_self _ _))))
      rw [litHolds_concatLiteral] at ha hb
      rw [ih (wellFormed_of_expansion hwf hexp) hbody, interpolate_split _ curr,
        interpolate_expansion hexp, hb, ha]
      simp [userAssignment]
  | last curr prev lits n hne hexp =>
      rw [convertLoop_end hne hexp] at hbody ⊢
      have ha := hbody _ (List.mem_append_right _ (List.mem_singleton_self _))
      rw [litHolds_concatLiteral] at ha
      rw [ha, interpolate_split, outsideFormatExpansion_fst_eq_nil hwf hexp]
      simp [interpolate]

/-- Each pass's literals are over the previous variable, constants, user variables
and the variables the pass draws. -/
theorem convertLoop_drawnIn {lo : Nat} (curr : List Char) (prev : IRTerm) (lits : List Literal)
    (n : Nat) (hlo : lo ≤ n) (hprev : DrawnIn lo n prev) (hlits : LitsDrawnIn lo n lits) :
    LitsDrawnIn lo (convertLoop curr prev lits n).2 (convertLoop curr prev lits n).1.1 ∧
      DrawnIn lo (convertLoop curr prev lits n).2 (convertLoop curr prev lits n).1.2 := by
  induction curr, prev, lits, n using convertLoop_induction with
  | nil => simpa using ⟨hlits, hprev⟩
  | pass curr prev lits n rest name hne hexp ih =>
      rw [convertLoop_expansion hne hexp]
      refine ih (by omega) (drawnIn_aux (by omega) (by omega)) fun l hl t ht => ?_
      simp only [List.mem_append, List.mem_cons, List.not_mem_nil, or_false] at hl
      rcases hl with hl | rfl | rfl
      · exact (hlits l hl t ht).mono le_rfl (by omega)
      · simp only [concatLiteral, List.mem_cons, List.not_mem_nil, or_false] at ht
        rcases ht with rfl | rfl | rfl
        · exact hprev.mono le_rfl (by omega)
        · simp
        · exact drawnIn_aux hlo (by omega)
      · simp only [concatLiteral, List.mem_cons, List.not_mem_nil, or_false] at ht
        rcases ht with rfl | rfl | rfl
        · exact drawnIn_aux hlo (by omega)
        · simp
        · exact drawnIn_aux (by omega) (by omega)
  | last curr prev lits n hne hexp =>
      rw [convertLoop_end hne hexp]
      refine ⟨fun l hl t ht => ?_, drawnIn_aux hlo (by omega)⟩
      simp only [List.mem_append, List.mem_singleton] at hl
      rcases hl with hl | rfl
      · exact (hlits l hl t ht).mono le_rfl (by omega)
      · simp only [concatLiteral, List.mem_cons, List.not_mem_nil, or_false] at ht
        rcases ht with rfl | rfl | rfl
        · exact hprev.mono le_rfl (by omega)
        · simp
        · exact drawnIn_aux hlo (by omega)

/-- **The chain is complete.** If the loop draws at most `2 ^ 32` ids and the
previous variable is not among them, any assignment can be changed on the drawn
variables alone so that every literal the loop adds holds. -/
theorem convertLoop_complete (curr : List Char) (prev : IRTerm) (lits : List Literal) (n : Nat)
    (hdraws : (convertLoop curr prev lits n).2 ≤ n + 2 ^ 32)
    (hprev : ¬ InWindow n (convertLoop curr prev lits n).2 prev) (ρ : IRTerm → String) :
    ∃ ρ', AgreeOff n (convertLoop curr prev lits n).2 ρ ρ' ∧
      ∀ l ∈ (convertLoop curr prev lits n).1.1, l ∈ lits ∨ LitHolds I ρ' l := by
  induction curr, prev, lits, n using convertLoop_induction generalizing ρ with
  | nil => exact ⟨ρ, AgreeOff.refl ρ, fun l hl => .inl (by simpa using hl)⟩
  | pass curr prev lits n rest name hne hexp ih =>
      have hN : n + 2 ≤ (convertLoop curr prev lits n).2 := by
        rw [convertLoop_expansion hne hexp]; exact le_convertLoop_snd _ _ _ _
      rw [convertLoop_expansion hne hexp] at hN hdraws hprev ⊢
      -- the pass's two variables get the prefix before and after the expansion
      let v₁ := prev.ground ρ ++ ⟨replaceEscapes (outsideFormatExpansion curr).2⟩
      let ρ₁ := Function.update ρ (.auxiliaryVariable (UInt32.ofNat n)) v₁
      let ρ₂ := Function.update ρ₁ (.auxiliaryVariable (UInt32.ofNat (n + 1)))
        (v₁ ++ ρ (.userVariable ⟨name⟩))
      have h₂ : AgreeOff (n + 1) (n + 2) ρ₁ ρ₂ := agreeOff_update ρ₁ (n + 1) _
      obtain ⟨ρ₃, h₃, hlits⟩ := ih (by omega) (not_inWindow_aux (by omega) (by omega)) ρ₂
      have hagree : AgreeOff n _ ρ ρ₃ :=
        ((agreeOff_update ρ n v₁).trans h₂ (by omega) (by omega)).trans h₃ (by omega) hN
      have hv₁ : (IRTerm.auxiliaryVariable (UInt32.ofNat n)).ground ρ₃ = v₁ := by
        rw [(h₂.trans h₃ (by omega) hN).ground (not_inWindow_aux (by omega) (by omega))]
        simp [ρ₁]
      have hv₂ : (IRTerm.auxiliaryVariable (UInt32.ofNat (n + 1))).ground ρ₃ =
          v₁ ++ ρ (.userVariable ⟨name⟩) := by
        rw [h₃.ground (not_inWindow_aux (by omega) (by omega))]
        simp [ρ₂]
      refine ⟨ρ₃, hagree, fun l hl => ?_⟩
      rcases hlits l hl with h | h
      · simp only [List.mem_append, List.mem_cons, List.not_mem_nil, or_false] at h
        rcases h with h | rfl | rfl
        · exact .inl h
        · refine .inr (litHolds_concatLiteral.mpr ?_)
          rw [hv₁, hagree.ground hprev]; rfl
        · refine .inr (litHolds_concatLiteral.mpr ?_)
          rw [hv₂, hv₁, IRTerm.ground_userVariable, hagree.userVariable]
      · exact .inr h
  | last curr prev lits n hne hexp =>
      rw [convertLoop_end hne hexp] at hdraws hprev ⊢
      refine ⟨_, agreeOff_update ρ n (prev.ground ρ ++ ⟨replaceEscapes (outsideFormatExpansion curr).2⟩),
        fun l hl => ?_⟩
      simp only [List.mem_append, List.mem_singleton] at hl
      rcases hl with hl | rfl
      · exact .inl hl
      · right
        rw [litHolds_concatLiteral, (agreeOff_update ρ n _).ground hprev]
        simp

end Loop

/-! ## `convert_format_string` -/

section Convert

variable {I : String → List String → Prop} {s : String} {n : Nat}

theorem lt_convertFormatString_snd : n < (convertFormatString s n).2 :=
  le_convertLoop_snd _ _ _ _

/-- The literals and the variable of a format string are drawn in its window. -/
theorem convertFormatString_drawnIn :
    LitsDrawnIn n (convertFormatString s n).2 (convertFormatString s n).1.1 ∧
      DrawnIn n (convertFormatString s n).2 (convertFormatString s n).1.2 := by
  refine convertLoop_drawnIn _ _ _ _ (Nat.le_succ n) (drawnIn_aux le_rfl (Nat.lt_succ_self n))
    fun l hl t ht => ?_
  rw [List.mem_singleton] at hl
  subst hl
  simp only [concatLiteral, List.mem_cons, List.not_mem_nil, or_false] at ht
  rcases ht with rfl | rfl | rfl
  · simp
  · simp
  · exact drawnIn_aux le_rfl (Nat.lt_succ_self n)

/-- **A format string's chain is sound**: when its literals hold, its variable is
the interpolation. -/
theorem convertFormatString_sound {ρ : IRTerm → String} (hwf : wellFormed s.data)
    (hbody : ∀ l ∈ (convertFormatString s n).1.1, LitHolds I ρ l) :
    (convertFormatString s n).1.2.ground ρ = ⟨interpolate (userAssignment ρ) s.data⟩ := by
  rw [convertFormatString_eq] at hbody ⊢
  have h₀ := hbody _ (mem_convertLoop (List.mem_singleton_self _))
  rw [litHolds_concatLiteral] at h₀
  exact String.ext (by rw [convertLoop_sound _ _ _ _ hwf hbody, h₀]; rfl)

/-- **A format string's chain is complete**: if it draws at most `2 ^ 32` ids, any
assignment can be changed on them alone so that its literals hold. -/
theorem convertFormatString_complete (hdraws : (convertFormatString s n).2 ≤ n + 2 ^ 32)
    (ρ : IRTerm → String) :
    ∃ ρ', AgreeOff n (convertFormatString s n).2 ρ ρ' ∧
      ∀ l ∈ (convertFormatString s n).1.1, LitHolds I ρ' l := by
  have hN := lt_convertFormatString_snd (s := s) (n := n)
  rw [convertFormatString_eq] at hdraws hN ⊢
  let ρ₁ := Function.update ρ (.auxiliaryVariable (UInt32.ofNat n)) ""
  obtain ⟨ρ₂, h₂, hlits⟩ := convertLoop_complete (I := I) s.data (.auxiliaryVariable (UInt32.ofNat n))
    [concatLiteral (.constant "") (.constant "") (.auxiliaryVariable (UInt32.ofNat n))] (n + 1)
    (by omega) (not_inWindow_aux (by omega) (by omega)) ρ₁
  refine ⟨ρ₂, (agreeOff_update ρ n "").trans h₂ (Nat.le_succ n) hN, fun l hl => ?_⟩
  rcases hlits l hl with h | h
  · rw [List.mem_singleton] at h
    subst h
    rw [litHolds_concatLiteral, h₂.ground (not_inWindow_aux (by omega) (by omega))]
    simp [ρ₁]
  · exact h

end Convert

/-! ## The chain has one solution -/

section Chain

variable {I : String → List String → Prop}

/-- The literals the loop adds: one `string_concat` per draw, whose third argument is
the variable drawn, in the order of the draws. -/
theorem convertLoop_chain (curr : List Char) (prev : IRTerm) (lits : List Literal) (n : Nat) :
    ∃ new, (convertLoop curr prev lits n).1.1 = lits ++ new ∧
      List.Forall₂ (fun l k => ∃ a b, l = concatLiteral a b (.auxiliaryVariable (UInt32.ofNat k)))
        new (List.range' n ((convertLoop curr prev lits n).2 - n)) := by
  induction curr, prev, lits, n using convertLoop_induction with
  | nil => exact ⟨[], by simp, by simp⟩
  | pass curr prev lits n rest name hne hexp ih =>
      obtain ⟨new, hnew, hall⟩ := ih
      have hle := le_convertLoop_snd rest (.auxiliaryVariable (UInt32.ofNat (n + 1)))
        (lits ++ [concatLiteral prev (.constant ⟨replaceEscapes (outsideFormatExpansion curr).2⟩)
            (.auxiliaryVariable (UInt32.ofNat n)),
          concatLiteral (.auxiliaryVariable (UInt32.ofNat n)) (.userVariable ⟨name⟩)
            (.auxiliaryVariable (UInt32.ofNat (n + 1)))]) (n + 2)
      rw [convertLoop_expansion hne hexp, hnew, List.append_assoc]
      refine ⟨_, rfl, ?_⟩
      rw [show ∀ N, n + 2 ≤ N → N - n = N - (n + 2) + 1 + 1 from fun N h => by omega, List.range'_succ,
        List.range'_succ]
      · exact .cons ⟨_, _, rfl⟩ (.cons ⟨_, _, rfl⟩ hall)
      · exact hle
  | last curr prev lits n hne hexp =>
      rw [convertLoop_end hne hexp]
      exact ⟨_, rfl, by simpa using ⟨_, _, rfl⟩⟩

/-- Third arguments drawn at distinct counters of one window of `2 ^ 32` are distinct. -/
theorem nodup_thirdArgs {ls : List Literal} {n len : Nat} (hlen : len ≤ 2 ^ 32)
    (h : List.Forall₂ (fun l k => ∃ a b, l = concatLiteral a b (.auxiliaryVariable (UInt32.ofNat k)))
      ls (List.range' n len)) :
    (ls.map (·.args[2]?)).Nodup := by
  have heq : ls.map (·.args[2]?) = (List.range' n len).map fun k =>
      some (IRTerm.auxiliaryVariable (UInt32.ofNat k)) := by
    rw [← List.forall₂_eq_eq_eq, List.forall₂_map_left_iff, List.forall₂_map_right_iff]
    exact h.imp fun l k ⟨a, b, hl⟩ => by rw [hl]; rfl
  rw [heq]
  refine (List.nodup_range' n len).map_on fun a ha b hb hab => ?_
  rw [List.mem_range'_1] at ha hb
  exact ofNat_injective_window ha.1 hb.1 (by omega) (by omega)
    (IRTerm.auxiliaryVariable.inj (Option.some.inj hab))

/-- A `string_concat` literal that holds under two assignments fixes its third
argument from its first two. -/
theorem concatLiteral_agree {ρ₁ ρ₂ : IRTerm → String} {a b c : IRTerm}
    (h₁ : LitHolds I ρ₁ (concatLiteral a b c)) (h₂ : LitHolds I ρ₂ (concatLiteral a b c))
    (ha : a.ground ρ₁ = a.ground ρ₂) (hb : b.ground ρ₁ = b.ground ρ₂) :
    ∀ t ∈ (concatLiteral a b c).args, t.ground ρ₁ = t.ground ρ₂ := by
  rw [litHolds_concatLiteral] at h₁ h₂
  simp only [concatLiteral, List.mem_cons, List.not_mem_nil, or_false]
  rintro t (rfl | rfl | rfl)
  exacts [ha, hb, by rw [h₁, h₂, ha, hb]]

theorem ground_userVariable_agree {ρ₁ ρ₂ : IRTerm → String}
    (hu : userAssignment ρ₁ = userAssignment ρ₂) (v : String) :
    (IRTerm.userVariable v).ground ρ₁ = (IRTerm.userVariable v).ground ρ₂ :=
  congrFun hu v

/-- **The chain's solution is unique.** Two assignments that agree on the user
variables, on the previous variable and on the literals so far, and make every
literal of the loop hold, agree on every argument of its literals and on its last
variable. -/
theorem convertLoop_unique {ρ₁ ρ₂ : IRTerm → String} (hu : userAssignment ρ₁ = userAssignment ρ₂)
    (curr : List Char) (prev : IRTerm) (lits : List Literal) (n : Nat)
    (hprev : prev.ground ρ₁ = prev.ground ρ₂)
    (hlits : ∀ l ∈ lits, ∀ t ∈ l.args, t.ground ρ₁ = t.ground ρ₂)
    (h₁ : ∀ l ∈ (convertLoop curr prev lits n).1.1, LitHolds I ρ₁ l)
    (h₂ : ∀ l ∈ (convertLoop curr prev lits n).1.1, LitHolds I ρ₂ l) :
    (∀ l ∈ (convertLoop curr prev lits n).1.1, ∀ t ∈ l.args, t.ground ρ₁ = t.ground ρ₂) ∧
      (convertLoop curr prev lits n).1.2.ground ρ₁ = (convertLoop curr prev lits n).1.2.ground ρ₂ := by
  induction curr, prev, lits, n using convertLoop_induction with
  | nil => simpa using ⟨hlits, hprev⟩
  | pass curr prev lits n rest name hne hexp ih =>
      rw [convertLoop_expansion hne hexp] at h₁ h₂ ⊢
      have hL₁ := concatLiteral_agree
        (h₁ _ (mem_convertLoop (List.mem_append_right _ (List.mem_cons_self _ _))))
        (h₂ _ (mem_convertLoop (List.mem_append_right _ (List.mem_cons_self _ _)))) hprev rfl
      have hL₂ := concatLiteral_agree
        (h₁ _ (mem_convertLoop (List.mem_append_right _ (.tail _ (List.mem_cons_self _ _)))))
        (h₂ _ (mem_convertLoop (List.mem_append_right _ (.tail _ (List.mem_cons_self _ _)))))
        (hL₁ _ (by simp [concatLiteral])) (ground_userVariable_agree hu _)
      refine ih (hL₂ _ (by simp [concatLiteral])) (fun l hl => ?_) h₁ h₂
      simp only [List.mem_append, List.mem_cons, List.not_mem_nil, or_false] at hl
      rcases hl with hl | rfl | rfl
      exacts [hlits l hl, hL₁, hL₂]
  | last curr prev lits n hne hexp =>
      rw [convertLoop_end hne hexp] at h₁ h₂ ⊢
      have hmem := List.mem_append_right lits (List.mem_singleton_self
        (concatLiteral prev (.constant ⟨replaceEscapes (outsideFormatExpansion curr).2⟩)
          (.auxiliaryVariable (UInt32.ofNat n))))
      have hL := concatLiteral_agree (h₁ _ hmem) (h₂ _ hmem) hprev rfl
      refine ⟨fun l hl t ht => ?_, hL _ (by simp [concatLiteral])⟩
      rcases List.mem_append.mp hl with hl | hl
      · exact hlits l hl t ht
      · rw [List.mem_singleton.mp hl] at ht; exact hL t ht

/-- The assignment that gives the user variables the values of `θ`, and every other
variable the empty string. -/
def withUsers (θ : String → String) : IRTerm → String
  | .userVariable v => θ v
  | _ => ""

@[simp] theorem userAssignment_withUsers (θ : String → String) :
    userAssignment (withUsers θ) = θ := rfl

/-- **`convert_format_string` computes the interpolation.** On a well-formed format
string, every literal it returns is a `string_concat` whose third argument is the
auxiliary variable of one of its draws, one literal per draw, in the order of the
draws. Read as `c = a ++ b`, the literals force the returned variable to the
interpolation of the string under the values of the user variables, and two
solutions that agree on the user variables agree on every argument of the literals:
at any number of draws, there is at most one solution for each assignment `θ` of
the user variables. When the call draws at most `2 ^ 32` ids, the third arguments
are distinct and every `θ` has a solution. -/
theorem convertFormatString_computes_interpolation (I : String → List String → Prop)
    (s : String) (n : Nat) (hwf : wellFormed s.data) :
    List.Forall₂ (fun l k => ∃ a b, l = concatLiteral a b (.auxiliaryVariable (UInt32.ofNat k)))
        (convertFormatString s n).1.1 (List.range' n ((convertFormatString s n).2 - n)) ∧
      (∀ ρ : IRTerm → String, (∀ l ∈ (convertFormatString s n).1.1, LitHolds I ρ l) →
        (convertFormatString s n).1.2.ground ρ = ⟨interpolate (userAssignment ρ) s.data⟩) ∧
      (∀ ρ₁ ρ₂ : IRTerm → String, userAssignment ρ₁ = userAssignment ρ₂ →
        (∀ l ∈ (convertFormatString s n).1.1, LitHolds I ρ₁ l) →
        (∀ l ∈ (convertFormatString s n).1.1, LitHolds I ρ₂ l) →
        ∀ l ∈ (convertFormatString s n).1.1, ∀ t ∈ l.args, t.ground ρ₁ = t.ground ρ₂) ∧
      ((convertFormatString s n).2 ≤ n + 2 ^ 32 →
        ((convertFormatString s n).1.1.map (·.args[2]?)).Nodup ∧
        ∀ θ : String → String, ∃ ρ : IRTerm → String, userAssignment ρ = θ ∧
          ∀ l ∈ (convertFormatString s n).1.1, LitHolds I ρ l) := by
  have hshape : List.Forall₂ (fun l k => ∃ a b, l = concatLiteral a b (.auxiliaryVariable (UInt32.ofNat k)))
      (convertFormatString s n).1.1 (List.range' n ((convertFormatString s n).2 - n)) := by
    obtain ⟨new, hnew, hall⟩ := convertLoop_chain s.data (.auxiliaryVariable (UInt32.ofNat n))
      [concatLiteral (.constant "") (.constant "") (.auxiliaryVariable (UInt32.ofNat n))] (n + 1)
    have hle := le_convertLoop_snd s.data (.auxiliaryVariable (UInt32.ofNat n))
      [concatLiteral (.constant "") (.constant "") (.auxiliaryVariable (UInt32.ofNat n))] (n + 1)
    rw [convertFormatString_eq, hnew, show ∀ N, n + 1 ≤ N → N - n = N - (n + 1) + 1 from
      fun N h => by omega, List.range'_succ]
    · exact .cons ⟨_, _, rfl⟩ hall
    · exact hle
  refine ⟨hshape, fun ρ => convertFormatString_sound hwf, fun ρ₁ ρ₂ hu h₁ h₂ => ?_,
    fun hdraws => ⟨nodup_thirdArgs (by omega) hshape, fun θ => ?_⟩⟩
  · -- the first literal fixes the chain's first variable, and the loop the rest
    rw [convertFormatString_eq] at h₁ h₂ ⊢
    have hV := concatLiteral_agree (h₁ _ (mem_convertLoop (List.mem_singleton_self _)))
      (h₂ _ (mem_convertLoop (List.mem_singleton_self _))) rfl rfl
    refine (convertLoop_unique hu _ _ _ _ (hV _ (by simp [concatLiteral])) (fun l hl => ?_) h₁ h₂).1
    rw [List.mem_singleton.mp hl]; exact hV
  · obtain ⟨ρ, hagree, hholds⟩ := convertFormatString_complete (I := I) hdraws (withUsers θ)
    exact ⟨ρ, by rw [hagree.userAssignment, userAssignment_withUsers], hholds⟩

/-- On `"a${x}"`, lowered from counter `0`, with `x = "b"`: the chain has a solution,
and it gives the variable `"ab"`. -/
theorem convertFormatString_computes_interpolation_ax :
    wellFormed ['a', '$', '{', 'x', '}'] ∧
      (convertFormatString ⟨['a', '$', '{', 'x', '}']⟩ 0).2 ≤ 0 + 2 ^ 32 ∧
      ∃ ρ : IRTerm → String, userAssignment ρ = (fun _ => "b") ∧
        (∀ l ∈ (convertFormatString ⟨['a', '$', '{', 'x', '}']⟩ 0).1.1,
          LitHolds (fun _ _ => True) ρ l) ∧
        (convertFormatString ⟨['a', '$', '{', 'x', '}']⟩ 0).1.2.ground ρ = "ab" := by
  have hexp : expansion (outsideFormatExpansion ['a', '$', '{', 'x', '}']).1 = some ([], ['x']) := by
    simp [outsideFormatExpansion, expansion, literalIdentifier, identChar]
  have hwf : wellFormed ['a', '$', '{', 'x', '}'] := by
    rw [wellFormed_split, wellFormed_expansion hexp, wellFormed]
  have hdraws : (convertFormatString ⟨['a', '$', '{', 'x', '}']⟩ 0).2 ≤ 0 + 2 ^ 32 := by
    rw [convertFormatString_eq, convertLoop_expansion (List.cons_ne_nil _ _) hexp, convertLoop_nil]
    decide
  obtain ⟨-, hV, -, h⟩ := convertFormatString_computes_interpolation (fun _ _ => True)
    ⟨['a', '$', '{', 'x', '}']⟩ 0 hwf
  obtain ⟨ρ, hu, hholds⟩ := (h hdraws).2 fun _ => "b"
  refine ⟨hwf, hdraws, ρ, hu, hholds, (hV ρ hholds).trans ?_⟩
  rw [hu, interpolate_split, interpolate_expansion hexp]
  simp [outsideFormatExpansion, replaceEscapes, interpolate]

end Chain

/-! ## The counter wraps -/

section Wrap

variable {I : String → List String → Prop}

/-- An expansion `${x}` at the front of the input. -/
theorem expansion_x (rest : List Char) :
    expansion ('$' :: '{' :: 'x' :: '}' :: rest) = some (rest, ['x']) := by
  simp [expansion, literalIdentifier, identChar]

theorem expansion_outside_x (rest : List Char) :
    expansion (outsideFormatExpansion ('$' :: '{' :: 'x' :: '}' :: rest)).1 = some (rest, ['x']) := by
  rw [outsideFormatExpansion]; exact expansion_x rest

/-- On `${x}` repeated, the loop makes one pass per expansion and draws two ids in each. -/
theorem convertLoop_replicate (k : Nat) : ∀ (prev : IRTerm) (lits : List Literal) (n : Nat),
    (convertLoop (List.replicate (k + 1) ['$', '{', 'x', '}']).flatten prev lits n).1.2 =
      .auxiliaryVariable (UInt32.ofNat (n + 2 * k + 1)) := by
  induction k with
  | zero =>
      intro prev lits n
      rw [Nat.zero_add, List.replicate_one, List.flatten_cons, List.flatten_nil, List.append_nil,
        convertLoop_expansion (List.cons_ne_nil _ _) (expansion_outside_x [])]
      simp
  | succ k ih =>
      intro prev lits n
      rw [List.replicate_succ, List.flatten_cons, List.cons_append, List.cons_append, List.cons_append,
        List.cons_append, List.nil_append,
        convertLoop_expansion (List.cons_ne_nil _ _) (expansion_outside_x _), ih]
      congr 2
      omega

theorem wellFormed_replicate (k : Nat) : wellFormed (List.replicate k ['$', '{', 'x', '}']).flatten := by
  induction k with
  | zero => rw [List.replicate_zero, List.flatten_nil, wellFormed]
  | succ k ih =>
      rw [List.replicate_succ, List.flatten_cons, List.cons_append, List.cons_append, List.cons_append,
        List.cons_append, List.nil_append, wellFormed_expansion (expansion_x _)]
      exact ih

/-- With `2 ^ 31` expansions of `x`, lowered from counter `0`, the chain draws
`2 ^ 32 + 1` ids, so its last variable is its first, `V₀`: the chain makes `V₀` both
`""` and a string that starts with the value of `x`, and has no solution when that
value is not empty. -/
theorem replicate_chain_unsat {ρ : IRTerm → String} (hx : ρ (.userVariable "x") ≠ "") :
    ¬ ∀ l ∈ (convertFormatString ⟨(List.replicate (2 ^ 31) ['$', '{', 'x', '}']).flatten⟩ 0).1.1,
      LitHolds I ρ l := by
  intro hChain
  have hValue := convertFormatString_sound (wellFormed_replicate _) hChain
  have hFirst := hChain _ (mem_convertLoop (List.mem_singleton_self _))
  -- draw `2 ^ 32` hands out the id of draw `0`
  have hLast : (convertFormatString ⟨(List.replicate (2 ^ 31) ['$', '{', 'x', '}']).flatten⟩ 0).1.2 =
      (aux 0).1 := by
    rw [convertFormatString_eq, show 2 ^ 31 = 2 ^ 31 - 1 + 1 from rfl, convertLoop_replicate]
    rfl
  rw [hLast, litHolds_concatLiteral.mp hFirst] at hValue
  have hEmpty := congrArg String.data hValue
  rw [show 2 ^ 31 = 2 ^ 31 - 1 + 1 from rfl, List.replicate_succ, List.flatten_cons,
    List.cons_append, List.cons_append, List.cons_append, List.cons_append, List.nil_append,
    interpolate_expansion (expansion_x _)] at hEmpty
  exact hx (String.ext (List.append_eq_nil.mp (show _ ++ _ = [] from hEmpty.symm)).1)

/-- **The counter wraps.** A format string of `2 ^ 31` expansions `${x}`, lowered from
counter `0`, draws `2 ^ 32 + 1` ids: two of its literals share their third argument,
and with `x = "b"` the chain has no solution. -/
theorem convertFormatString_wraps :
    ¬ ∃ ρ : IRTerm → String, userAssignment ρ = (fun _ => "b") ∧
      ∀ l ∈ (convertFormatString ⟨(List.replicate (2 ^ 31) ['$', '{', 'x', '}']).flatten⟩ 0).1.1,
        LitHolds (fun _ _ => True) ρ l := by
  rintro ⟨ρ, hu, hChain⟩
  have hx : ρ (.userVariable "x") = "b" := congrFun hu _
  exact replicate_chain_unsat (by rw [hx]; decide) hChain

end Wrap

end Modus.Translate
