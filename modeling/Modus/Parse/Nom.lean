import Mathlib

/-!
# The parser combinators of nom, on `&str`

The parsers of `logic.rs` and `modusfile.rs` are built from nom's combinators, in
their `complete` versions. A parser takes the input and returns the rest of it and
an output, or an error. nom has three kinds of error, and the parsers here can
produce two of them: `Error`, which `alt`, `opt` and the loops recover from by
trying something else, and `Failure`, which `cut` makes of an `Error` and nothing
recovers from. The `Incomplete` of the streaming versions never arises. A third
outcome is a panic of the Rust code a parser calls, which unwinds through every
combinator; it is `Err.panic`. The payloads of the errors (`VerboseError`, and
the `context` labels) are left out.

The loops `many0`, `fold_many0` and `separated_list0` stop with an `Error` when an
iteration consumes nothing; so each iteration that goes on consumes at least one
character, and a loop over an input of length `n` makes at most `n + 1` calls. The
loops are written with that bound as fuel, which keeps them structurally recursive
and computable, and `many0_ok`, `sepLoop_ok` show that the fuel never runs out
for parsers that only consume input (`Consumes`).

## Main results

* `Consumes` holds of every primitive and is kept by every combinator.
* `Yields` — what a parser returns; every combinator passes on what its parts return.
* `many0_error`, `many0_ok`, `sepLoop_ok` — the loops unfold as nom's do.
* `separatedList1_joined`, `separatedList0_joined` — the list parsers read a list
  printed with `", "` between its items.
* `tag_append`, `takeWhile1_append`, `takeWhile0_append` — the primitives on an
  input whose front they accept, in the remainder form the round trips use.
-/

namespace Modus.Nom

/-- `nom::Err` without its payload, and the panics of the code a parser calls. -/
inductive Err where
  | error
  | failure
  | panic (msg : String)
  deriving DecidableEq, Repr

/-- A parser of `&str`: `IResult<&str, O>`, the rest of the input first. -/
abbrev Parser (α : Type) := List Char → Except Err (List Char × α)

variable {α β γ : Type}

/-! ## Primitives -/

/-- `tag(t)`: the input starts with `t`. -/
def tag (t : List Char) : Parser (List Char) := fun i =>
  if t.isPrefixOf i then .ok (i.drop t.length, t) else .error .error

/-- `split_at_position1_complete`: the longest prefix of characters satisfying `p`,
which must not be empty. -/
def takeWhile1 (p : Char → Bool) : Parser (List Char) := fun i =>
  if (i.takeWhile p).isEmpty then .error .error else .ok (i.dropWhile p, i.takeWhile p)

/-- `split_at_position_complete`: the longest prefix of characters satisfying `p`. -/
def takeWhile0 (p : Char → Bool) : Parser (List Char) := fun i =>
  .ok (i.dropWhile p, i.takeWhile p)

/-- `is_not(arr)`: at least one character, up to the first one in `arr`. -/
def isNot (arr : List Char) : Parser (List Char) := takeWhile1 fun c => !arr.contains c

/-- `alpha1`: at least one ASCII letter. -/
def alpha1 : Parser (List Char) := takeWhile1 Char.isAlpha

/-- `alphanumeric1`: at least one ASCII letter or digit. -/
def alphanumeric1 : Parser (List Char) := takeWhile1 Char.isAlphanum

/-- The characters `space0` reads: a space or a tab. -/
def isBlank (c : Char) : Bool := c == ' ' || c == '\t'

/-- `space0`: spaces and tabs. -/
def space0 : Parser (List Char) := takeWhile0 isBlank

/-- The characters `multispace0` reads: a space, a tab, a carriage return or a line
feed. -/
def isMultispace (c : Char) : Bool := c == ' ' || c == '\t' || c == '\r' || c == '\n'

/-- `multispace0`: spaces, tabs, carriage returns and line feeds. -/
def multispace0 : Parser (List Char) := takeWhile0 isMultispace

/-- `line_ending`: `\n` or `\r\n`. -/
def lineEnding : Parser (List Char) := fun i =>
  match i with
  | '\n' :: r => .ok (r, ['\n'])
  | '\r' :: '\n' :: r => .ok (r, ['\r', '\n'])
  | _ => .error .error

/-- `not_line_ending`: everything up to the first `\r` or `\n`; a `\r` that does not
start `\r\n` is an error. -/
def notLineEnding : Parser (List Char) := fun i =>
  match i.dropWhile fun c => c != '\r' && c != '\n' with
  | '\r' :: '\n' :: r => .ok ('\r' :: '\n' :: r, i.takeWhile fun c => c != '\r' && c != '\n')
  | '\r' :: _ => .error .error
  | r => .ok (r, i.takeWhile fun c => c != '\r' && c != '\n')

/-- `eof`: the input is used up. -/
def eof : Parser (List Char) := fun i => if i.isEmpty then .ok (i, i) else .error .error

/-! ## Sequencing and choice -/

/-- `map(p, f)`. -/
def map (p : Parser α) (f : α → β) : Parser β := fun i =>
  match p i with
  | .ok (r, a) => .ok (r, f a)
  | .error e => .error e

/-- `pair(p, q)`. -/
def pair (p : Parser α) (q : Parser β) : Parser (α × β) := fun i =>
  match p i with
  | .ok (j, a) =>
      match q j with
      | .ok (r, b) => .ok (r, (a, b))
      | .error e => .error e
  | .error e => .error e

/-- `preceded(p, q)`. -/
def preceded (p : Parser α) (q : Parser β) : Parser β := map (pair p q) Prod.snd

/-- `terminated(p, q)`. -/
def terminated (p : Parser α) (q : Parser β) : Parser α := map (pair p q) Prod.fst

/-- `delimited(p, q, r)`. -/
def delimited (p : Parser α) (q : Parser β) (r : Parser γ) : Parser β :=
  preceded p (terminated q r)

/-- `separated_pair(p, sep, q)`. -/
def separatedPair (p : Parser α) (sep : Parser β) (q : Parser γ) : Parser (α × γ) :=
  pair p (preceded sep q)

/-- `alt((p, q))`: `q` when `p` fails with an `Error`. -/
def alt (p q : Parser α) : Parser α := fun i =>
  match p i with
  | .error .error => q i
  | r => r

/-- `opt(p)`: `None`, consuming nothing, when `p` fails with an `Error`. -/
def opt (p : Parser α) : Parser (Option α) := fun i =>
  match p i with
  | .ok (r, a) => .ok (r, some a)
  | .error .error => .ok (i, none)
  | .error e => .error e

/-- `cut(p)`: an `Error` of `p` becomes a `Failure`. -/
def cut (p : Parser α) : Parser α := fun i =>
  match p i with
  | .error .error => .error .failure
  | r => r

/-- `recognize(p)`: the part of the input `p` consumed. -/
def recognize (p : Parser α) : Parser (List Char) := fun i =>
  match p i with
  | .ok (r, _) => .ok (r, i.take (i.length - r.length))
  | .error e => .error e

/-! ## Loops -/

/-- The loop of `many0`, for at most `fuel` calls of `p`. -/
def many0Loop (p : Parser α) : Nat → Parser (List α)
  | 0 => fun _ => .error .error
  | fuel + 1 => fun i =>
      match p i with
      | .error .error => .ok (i, [])
      | .error e => .error e
      | .ok (r, a) =>
          if r.length = i.length then .error .error
          else
            match many0Loop p fuel r with
            | .ok (r', as) => .ok (r', a :: as)
            | .error e => .error e

/-- `many0(p)`: `p` as often as it parses; an iteration that consumes nothing is an
error. -/
def many0 (p : Parser α) : Parser (List α) := fun i => many0Loop p (i.length + 1) i

/-- `fold_many0(p, init, g)`: the loop of `many0`, its outputs folded. -/
def foldMany0 (p : Parser α) (init : β) (g : β → α → β) : Parser β :=
  map (many0 p) fun as => as.foldl g init

/-- The loop of `separated_list0` after the first element, for at most `fuel`
separators: a separator and an element, while both parse. A separator that consumes
nothing is an error; an element that does not parse leaves the separator unread. -/
def sepLoop (sep : Parser β) (p : Parser α) : Nat → Parser (List α)
  | 0 => fun _ => .error .error
  | fuel + 1 => fun i =>
      match sep i with
      | .error .error => .ok (i, [])
      | .error e => .error e
      | .ok (j, _) =>
          if j.length = i.length then .error .error
          else
            match p j with
            | .error .error => .ok (i, [])
            | .error e => .error e
            | .ok (r, a) =>
                match sepLoop sep p fuel r with
                | .ok (r', as) => .ok (r', a :: as)
                | .error e => .error e

/-- `separated_list0(sep, p)`. -/
def separatedList0 (sep : Parser β) (p : Parser α) : Parser (List α) := fun i =>
  match p i with
  | .error .error => .ok (i, [])
  | .error e => .error e
  | .ok (r, a) =>
      match sepLoop sep p (r.length + 1) r with
      | .ok (r', as) => .ok (r', a :: as)
      | .error e => .error e

/-- `separated_list1(sep, p)`: as `separated_list0`, but the first element must parse. -/
def separatedList1 (sep : Parser β) (p : Parser α) : Parser (List α) := fun i =>
  match p i with
  | .error e => .error e
  | .ok (r, a) =>
      match sepLoop sep p (r.length + 1) r with
      | .ok (r', as) => .ok (r', a :: as)
      | .error e => .error e

/-! ## Parsers consume input -/

/-- The rest a parser returns is a suffix of its input. -/
def Consumes (p : Parser α) : Prop := ∀ i r a, p i = .ok (r, a) → r <:+ i

theorem tag_consumes (t : List Char) : Consumes (tag t) := by
  intro i r a h
  unfold tag at h
  split at h
  · cases h; exact List.drop_suffix _ _
  · cases h

theorem takeWhile1_consumes (p : Char → Bool) : Consumes (takeWhile1 p) := by
  intro i r a h
  unfold takeWhile1 at h
  split at h
  · cases h
  · cases h; exact List.dropWhile_suffix p

theorem takeWhile0_consumes (p : Char → Bool) : Consumes (takeWhile0 p) := by
  intro i r a h
  cases h; exact List.dropWhile_suffix p

theorem lineEnding_consumes : Consumes lineEnding := by
  intro i r a h
  unfold lineEnding at h
  split at h <;> cases h
  · exact List.suffix_cons _ _
  · exact (List.suffix_cons _ _).trans (List.suffix_cons _ _)

theorem notLineEnding_consumes : Consumes notLineEnding := by
  intro i r a h
  unfold notLineEnding at h
  split at h
  · cases h; rename_i hd; rw [← hd]; exact List.dropWhile_suffix _
  · cases h
  · cases h; exact List.dropWhile_suffix _

theorem map_consumes {p : Parser α} (hp : Consumes p) (f : α → β) : Consumes (map p f) := by
  intro i r b h
  unfold map at h
  split at h
  · cases h; exact hp _ _ _ ‹_›
  · cases h

theorem pair_consumes {p : Parser α} {q : Parser β} (hp : Consumes p) (hq : Consumes q) :
    Consumes (pair p q) := by
  intro i r ab h
  unfold pair at h
  split at h
  · split at h
    · cases h; exact (hq _ _ _ ‹_›).trans (hp _ _ _ ‹_›)
    · cases h
  · cases h

theorem preceded_consumes {p : Parser α} {q : Parser β} (hp : Consumes p) (hq : Consumes q) :
    Consumes (preceded p q) :=
  map_consumes (pair_consumes hp hq) _

theorem terminated_consumes {p : Parser α} {q : Parser β} (hp : Consumes p) (hq : Consumes q) :
    Consumes (terminated p q) :=
  map_consumes (pair_consumes hp hq) _

theorem delimited_consumes {p : Parser α} {q : Parser β} {r : Parser γ} (hp : Consumes p)
    (hq : Consumes q) (hr : Consumes r) : Consumes (delimited p q r) :=
  preceded_consumes hp (terminated_consumes hq hr)

theorem separatedPair_consumes {p : Parser α} {sep : Parser β} {q : Parser γ} (hp : Consumes p)
    (hsep : Consumes sep) (hq : Consumes q) : Consumes (separatedPair p sep q) :=
  pair_consumes hp (preceded_consumes hsep hq)

theorem alt_consumes {p q : Parser α} (hp : Consumes p) (hq : Consumes q) : Consumes (alt p q) := by
  intro i r a h
  unfold alt at h
  split at h
  · exact hq _ _ _ h
  · exact hp _ _ _ h

theorem opt_consumes {p : Parser α} (hp : Consumes p) : Consumes (opt p) := by
  intro i r a h
  unfold opt at h
  split at h
  · cases h; exact hp _ _ _ ‹_›
  · cases h; exact List.suffix_refl i
  · cases h

theorem cut_consumes {p : Parser α} (hp : Consumes p) : Consumes (cut p) := by
  intro i r a h
  unfold cut at h
  split at h
  · cases h
  · exact hp _ _ _ h

theorem recognize_consumes {p : Parser α} (hp : Consumes p) : Consumes (recognize p) := by
  intro i r a h
  unfold recognize at h
  split at h
  · cases h; exact hp _ _ _ ‹_›
  · cases h

theorem many0Loop_consumes {p : Parser α} (hp : Consumes p) :
    ∀ fuel, Consumes (many0Loop p fuel)
  | 0 => fun _ _ _ h => by cases h
  | fuel + 1 => fun i r as h => by
      simp only [many0Loop] at h
      split at h
      · cases h; exact List.suffix_refl i
      · cases h
      · split at h
        · cases h
        · split at h
          · cases h; exact (many0Loop_consumes hp fuel _ _ _ ‹_›).trans (hp _ _ _ ‹_›)
          · cases h

theorem many0_consumes {p : Parser α} (hp : Consumes p) : Consumes (many0 p) :=
  fun i => many0Loop_consumes hp (i.length + 1) i

theorem sepLoop_consumes {sep : Parser β} {p : Parser α} (hp : Consumes p) (hsep : Consumes sep) :
    ∀ fuel, Consumes (sepLoop sep p fuel)
  | 0 => fun _ _ _ h => by cases h
  | fuel + 1 => fun i r as h => by
      simp only [sepLoop] at h
      split at h
      · cases h; exact List.suffix_refl i
      · cases h
      · split at h
        · cases h
        · split at h
          · cases h; exact List.suffix_refl i
          · cases h
          · split at h
            · cases h
              exact ((sepLoop_consumes hp hsep fuel _ _ _ ‹_›).trans (hp _ _ _ ‹_›)).trans
                (hsep _ _ _ ‹_›)
            · cases h

theorem separatedList0_consumes {sep : Parser β} {p : Parser α} (hp : Consumes p)
    (hsep : Consumes sep) : Consumes (separatedList0 sep p) := by
  intro i r as h
  unfold separatedList0 at h
  split at h
  · cases h; exact List.suffix_refl i
  · cases h
  · split at h
    · cases h; exact (sepLoop_consumes hp hsep _ _ _ _ ‹_›).trans (hp _ _ _ ‹_›)
    · cases h

theorem separatedList1_consumes {sep : Parser β} {p : Parser α} (hp : Consumes p)
    (hsep : Consumes sep) : Consumes (separatedList1 sep p) := by
  intro i r as h
  unfold separatedList1 at h
  split at h
  · cases h
  · split at h
    · cases h; exact (sepLoop_consumes hp hsep _ _ _ _ ‹_›).trans (hp _ _ _ ‹_›)
    · cases h

/-! ## What parsers return -/

/-- Every output of the parser satisfies `P`. -/
def Yields (P : α → Prop) (p : Parser α) : Prop := ∀ i r a, p i = .ok (r, a) → P a

theorem yields_true (p : Parser α) : Yields (fun _ => True) p := fun _ _ _ _ => trivial

theorem Yields.mono {P Q : α → Prop} {p : Parser α} (hp : Yields P p) (h : ∀ a, P a → Q a) :
    Yields Q p :=
  fun i r a hi => h a (hp i r a hi)

theorem takeWhile1_yields (p : Char → Bool) :
    Yields (fun w => w ≠ [] ∧ ∀ c ∈ w, p c = true) (takeWhile1 p) := by
  intro i r a h
  unfold takeWhile1 at h
  split at h
  · cases h
  · rename_i hne
    cases h
    exact ⟨fun he => hne (by rw [he]; rfl), fun _ hc => List.mem_takeWhile_imp hc⟩

theorem map_yields {P : α → Prop} {Q : β → Prop} {p : Parser α} (hp : Yields P p) {f : α → β}
    (hf : ∀ a, P a → Q (f a)) : Yields Q (map p f) := by
  intro i r b h
  unfold map at h
  split at h
  · cases h; exact hf _ (hp _ _ _ ‹_›)
  · cases h

theorem pair_yields {P : α → Prop} {Q : β → Prop} {p : Parser α} {q : Parser β} (hp : Yields P p)
    (hq : Yields Q q) : Yields (fun x => P x.1 ∧ Q x.2) (pair p q) := by
  intro i r ab h
  unfold pair at h
  split at h
  · split at h
    · cases h; exact ⟨hp _ _ _ ‹_›, hq _ _ _ ‹_›⟩
    · cases h
  · cases h

theorem preceded_yields {P : β → Prop} {p : Parser α} {q : Parser β} (hq : Yields P q) :
    Yields P (preceded p q) :=
  map_yields (pair_yields (yields_true p) hq) fun _ h => h.2

theorem terminated_yields {P : α → Prop} {p : Parser α} {q : Parser β} (hp : Yields P p) :
    Yields P (terminated p q) :=
  map_yields (pair_yields hp (yields_true q)) fun _ h => h.1

theorem delimited_yields {P : β → Prop} {p : Parser α} {q : Parser β} {r : Parser γ}
    (hq : Yields P q) : Yields P (delimited p q r) :=
  preceded_yields (terminated_yields hq)

theorem separatedPair_yields {P : α → Prop} {Q : γ → Prop} {p : Parser α} {sep : Parser β}
    {q : Parser γ} (hp : Yields P p) (hq : Yields Q q) :
    Yields (fun x => P x.1 ∧ Q x.2) (separatedPair p sep q) :=
  pair_yields hp (preceded_yields hq)

theorem alt_yields {P : α → Prop} {p q : Parser α} (hp : Yields P p) (hq : Yields P q) :
    Yields P (alt p q) := by
  intro i r a h
  unfold alt at h
  split at h
  · exact hq _ _ _ h
  · exact hp _ _ _ h

theorem cut_yields {P : α → Prop} {p : Parser α} (hp : Yields P p) : Yields P (cut p) := by
  intro i r a h
  unfold cut at h
  split at h
  · cases h
  · exact hp _ _ _ h

theorem opt_yields {P : α → Prop} {p : Parser α} (hp : Yields P p) :
    Yields (fun o => ∀ a ∈ o, P a) (opt p) := by
  intro i r o h
  unfold opt at h
  split at h
  · cases h; rintro a ⟨⟩; exact hp _ _ _ ‹_›
  · cases h; nofun
  · cases h

theorem sepLoop_yields {P : α → Prop} {sep : Parser β} {p : Parser α} (hp : Yields P p) :
    ∀ fuel, Yields (fun as => ∀ a ∈ as, P a) (sepLoop sep p fuel)
  | 0 => fun _ _ _ h => by cases h
  | fuel + 1 => fun i r as h => by
      simp only [sepLoop] at h
      split at h
      · cases h; nofun
      · cases h
      · split at h
        · cases h
        · split at h
          · cases h; nofun
          · cases h
          · split at h
            · cases h
              exact List.forall_mem_cons.mpr ⟨hp _ _ _ ‹_›, sepLoop_yields hp fuel _ _ _ ‹_›⟩
            · cases h

theorem separatedList0_yields {P : α → Prop} {sep : Parser β} {p : Parser α} (hp : Yields P p) :
    Yields (fun as => ∀ a ∈ as, P a) (separatedList0 sep p) := by
  intro i r as h
  unfold separatedList0 at h
  split at h
  · cases h; nofun
  · cases h
  · split at h
    · cases h
      exact List.forall_mem_cons.mpr ⟨hp _ _ _ ‹_›, sepLoop_yields hp _ _ _ _ ‹_›⟩
    · cases h

theorem separatedList1_yields {P : α → Prop} {sep : Parser β} {p : Parser α} (hp : Yields P p) :
    Yields (fun as => ∀ a ∈ as, P a) (separatedList1 sep p) := by
  intro i r as h
  unfold separatedList1 at h
  split at h
  · cases h
  · split at h
    · cases h
      exact List.forall_mem_cons.mpr ⟨hp _ _ _ ‹_›, sepLoop_yields hp _ _ _ _ ‹_›⟩
    · cases h

/-! ## The loops unfold as nom's do -/

section Loops

variable {p : Parser α} {sep : Parser β}

/-- Enough fuel is as good as more: each call of `p` that goes on consumes. -/
theorem many0Loop_fuel (hp : Consumes p) :
    ∀ fuel fuel' i, i.length < fuel → i.length < fuel' → many0Loop p fuel i = many0Loop p fuel' i
  | 0, _, _, h, _ => absurd h (Nat.not_lt_zero _)
  | _ + 1, 0, _, _, h => absurd h (Nat.not_lt_zero _)
  | fuel + 1, fuel' + 1, i, h, h' => by
      simp only [many0Loop]
      split
      · rfl
      · rfl
      · rename_i r a hr
        have hlen := (hp _ _ _ hr).length_le
        split
        · rfl
        · rw [many0Loop_fuel hp fuel fuel' r (by omega) (by omega)]

theorem many0_error (hi : p i = .error .error) : many0 p i = .ok (i, []) := by
  simp only [many0, many0Loop, hi]

/-- An iteration that consumes: the rest of the loop runs on what is left. -/
theorem many0_ok (hp : Consumes p) {i r : List Char} {a : α} (hi : p i = .ok (r, a))
    (hlt : r.length < i.length) :
    many0 p i = match many0 p r with
      | .ok (r', as) => .ok (r', a :: as)
      | .error e => .error e := by
  show many0Loop p (i.length + 1) i = _
  rw [many0Loop]
  simp only [hi, if_neg (Nat.ne_of_lt hlt)]
  rw [many0Loop_fuel hp i.length (r.length + 1) r hlt (Nat.lt_succ_self _)]
  rfl

theorem sepLoop_fuel (hp : Consumes p) (hsep : Consumes sep) :
    ∀ fuel fuel' i, i.length < fuel → i.length < fuel' →
      sepLoop sep p fuel i = sepLoop sep p fuel' i
  | 0, _, _, h, _ => absurd h (Nat.not_lt_zero _)
  | _ + 1, 0, _, _, h => absurd h (Nat.not_lt_zero _)
  | fuel + 1, fuel' + 1, i, h, h' => by
      simp only [sepLoop]
      split
      · rfl
      · rfl
      · rename_i j b hj
        have hj' := (hsep _ _ _ hj).length_le
        split
        · rfl
        · split
          · rfl
          · rfl
          · rename_i r a hr
            have hr' := (hp _ _ _ hr).length_le
            rw [sepLoop_fuel hp hsep fuel fuel' r (by omega) (by omega)]

/-- The loop of `separated_list0` with enough fuel unfolds into one separator and one
element, then the loop on what is left. -/
theorem sepLoop_ok (hp : Consumes p) (hsep : Consumes sep) {fuel : Nat} {i j r : List Char}
    {b : β} {a : α} (hfuel : i.length < fuel) (hs : sep i = .ok (j, b)) (hj : j.length < i.length)
    (hpj : p j = .ok (r, a)) :
    sepLoop sep p fuel i = match sepLoop sep p (r.length + 1) r with
      | .ok (r', as) => .ok (r', a :: as)
      | .error e => .error e := by
  obtain ⟨fuel, rfl⟩ : ∃ f, fuel = f + 1 := ⟨fuel - 1, by omega⟩
  have hr := (hp _ _ _ hpj).length_le
  rw [sepLoop]
  simp only [hs, if_neg (Nat.ne_of_lt hj), hpj]
  rw [sepLoop_fuel hp hsep fuel (r.length + 1) r (by omega) (Nat.lt_succ_self _)]

theorem sepLoop_sep_error {fuel : Nat} {i : List Char} (hfuel : 0 < fuel)
    (hs : sep i = .error .error) : sepLoop sep p fuel i = .ok (i, []) := by
  obtain ⟨fuel, rfl⟩ : ∃ f, fuel = f + 1 := ⟨fuel - 1, by omega⟩
  simp only [sepLoop, hs]

theorem sepLoop_elem_error {fuel : Nat} {i j : List Char} {b : β} (hfuel : 0 < fuel)
    (hs : sep i = .ok (j, b)) (hj : j.length < i.length) (hpj : p j = .error .error) :
    sepLoop sep p fuel i = .ok (i, []) := by
  obtain ⟨fuel, rfl⟩ : ∃ f, fuel = f + 1 := ⟨fuel - 1, by omega⟩
  simp only [sepLoop, hs, if_neg (Nat.ne_of_lt hj), hpj]

/-- A separator that reads nothing stops the loop with an `Error`. -/
theorem sepLoop_sep_stuck {fuel : Nat} {i : List Char} {b : β} (hfuel : 0 < fuel)
    (hs : sep i = .ok (i, b)) : sepLoop sep p fuel i = .error .error := by
  obtain ⟨fuel, rfl⟩ : ∃ f, fuel = f + 1 := ⟨fuel - 1, by omega⟩
  simp only [sepLoop, hs, if_true]

end Loops

/-! ## Primitives on an input they accept -/

section Remainder

variable {p : Char → Bool} {w r : List Char}

theorem tag_append (t r : List Char) : tag t (t ++ r) = .ok (r, t) := by
  simp [tag, List.isPrefixOf_iff_prefix]

theorem tag_error {t i : List Char} (h : ¬ t <+: i) : tag t i = .error .error := by
  simp [tag, List.isPrefixOf_iff_prefix, h]

theorem tag_cons_error {t cs : List Char} {d c : Char} (h : d ≠ c) :
    tag (d :: t) (c :: cs) = .error .error :=
  tag_error fun hp => h (List.cons_prefix_cons.mp hp).1

theorem takeWhile_append_of_stop (hw : ∀ c ∈ w, p c = true) (hr : ∀ c ∈ r.head?, p c = false) :
    (w ++ r).takeWhile p = w ∧ (w ++ r).dropWhile p = r := by
  induction w with
  | nil =>
      cases r with
      | nil => simp
      | cons c r => simp [List.takeWhile_cons, List.dropWhile_cons, hr c rfl]
  | cons c w ih =>
      have hc := hw c (List.mem_cons_self _ _)
      obtain ⟨h₁, h₂⟩ := ih fun d hd => hw d (List.mem_cons_of_mem _ hd)
      simp [List.takeWhile_cons, List.dropWhile_cons, hc, h₁, h₂]

theorem takeWhile0_append (hw : ∀ c ∈ w, p c = true) (hr : ∀ c ∈ r.head?, p c = false) :
    takeWhile0 p (w ++ r) = .ok (r, w) := by
  obtain ⟨h₁, h₂⟩ := takeWhile_append_of_stop hw hr
  simp [takeWhile0, h₁, h₂]

theorem takeWhile0_of_stop {i : List Char} (h : ∀ c ∈ i.head?, p c = false) :
    takeWhile0 p i = .ok (i, []) := by
  cases i with
  | nil => rfl
  | cons c i => simp [takeWhile0, List.takeWhile_cons, List.dropWhile_cons, h c rfl]

theorem takeWhile1_append (hne : w ≠ []) (hw : ∀ c ∈ w, p c = true)
    (hr : ∀ c ∈ r.head?, p c = false) : takeWhile1 p (w ++ r) = .ok (r, w) := by
  obtain ⟨h₁, h₂⟩ := takeWhile_append_of_stop hw hr
  simp [takeWhile1, h₁, h₂, List.isEmpty_iff, hne]

/-- Dropping a run of `p`-characters, then of `q`-characters, where every
`p`-character is a `q`-character, drops the run of `q`-characters. -/
theorem dropWhile_dropWhile_of_imp {q : Char → Bool} (h : ∀ c, p c = true → q c = true) :
    ∀ l : List Char, (l.dropWhile p).dropWhile q = l.dropWhile q
  | [] => rfl
  | c :: l => by
      by_cases hc : p c = true
      · rw [List.dropWhile_cons_of_pos hc, dropWhile_dropWhile_of_imp h l,
          List.dropWhile_cons_of_pos (h c hc)]
      · rw [List.dropWhile_cons_of_neg hc]

/-- The part of `l` before `l.dropWhile p` is `l.takeWhile p`. -/
theorem take_sub_dropWhile (l : List Char) :
    l.take (l.length - (l.dropWhile p).length) = l.takeWhile p := by
  have h := List.takeWhile_append_dropWhile p l
  have htake : (l.takeWhile p ++ l.dropWhile p).take (l.takeWhile p).length = l.takeWhile p :=
    List.take_left' rfl
  have hlen := congrArg List.length h
  rw [List.length_append] at hlen
  rwa [h, show (l.takeWhile p).length = l.length - (l.dropWhile p).length by omega] at htake

theorem takeWhile1_error {i : List Char} (h : ∀ c ∈ i.head?, p c = false) :
    takeWhile1 p i = .error .error := by
  cases i with
  | nil => rfl
  | cons c i => simp [takeWhile1, List.takeWhile_cons, h c rfl]

end Remainder

/-! ## Combinators on what their parts return -/

section Steps

variable {p : Parser α} {q : Parser β} {i j k r : List Char} {a : α} {b : β}

theorem map_ok (h : p i = .ok (r, a)) (f : α → β) : map p f i = .ok (r, f a) := by
  simp only [map, h]

theorem map_error {e : Err} (h : p i = .error e) (f : α → β) : map p f i = .error e := by
  simp only [map, h]

theorem pair_ok (hp : p i = .ok (j, a)) (hq : q j = .ok (r, b)) : pair p q i = .ok (r, (a, b)) := by
  simp only [pair, hp, hq]

theorem pair_error_left {e : Err} (hp : p i = .error e) : pair p q i = .error e := by
  simp only [pair, hp]

theorem pair_error_right {e : Err} (hp : p i = .ok (j, a)) (hq : q j = .error e) :
    pair p q i = .error e := by
  simp only [pair, hp, hq]

theorem preceded_ok (hp : p i = .ok (j, a)) (hq : q j = .ok (r, b)) : preceded p q i = .ok (r, b) :=
  map_ok (pair_ok hp hq) _

theorem terminated_ok (hp : p i = .ok (j, a)) (hq : q j = .ok (r, b)) :
    terminated p q i = .ok (r, a) :=
  map_ok (pair_ok hp hq) _

theorem delimited_ok {t : Parser γ} {c : γ} (hp : p i = .ok (j, a)) (hq : q j = .ok (k, b))
    (ht : t k = .ok (r, c)) : delimited p q t i = .ok (r, b) :=
  preceded_ok hp (terminated_ok hq ht)

theorem delimited_error_left {t : Parser γ} {e : Err} (hp : p i = .error e) :
    delimited p q t i = .error e :=
  map_error (pair_error_left hp) _

theorem delimited_error_mid {t : Parser γ} {e : Err} (hp : p i = .ok (j, a)) (hq : q j = .error e) :
    delimited p q t i = .error e := by
  simp only [delimited, preceded, terminated, map, pair, hp, hq]

theorem separatedPair_ok {t : Parser γ} {c : γ} (hp : p i = .ok (j, a)) (hq : q j = .ok (k, b))
    (ht : t k = .ok (r, c)) : separatedPair p q t i = .ok (r, (a, c)) :=
  pair_ok hp (preceded_ok hq ht)

theorem alt_ok {p' : Parser α} (h : p i = .ok (r, a)) : alt p p' i = .ok (r, a) := by
  simp only [alt, h]

theorem alt_error {p' : Parser α} (h : p i = .error .error) : alt p p' i = p' i := by
  simp only [alt, h]

theorem opt_ok (h : p i = .ok (r, a)) : opt p i = .ok (r, some a) := by
  simp only [opt, h]

theorem opt_error (h : p i = .error .error) : opt p i = .ok (i, none) := by
  simp only [opt, h]

theorem cut_ok (h : p i = .ok (r, a)) : cut p i = .ok (r, a) := by
  simp only [cut, h]

theorem cut_error (h : p i = .error .error) : cut p i = .error .failure := by
  simp only [cut, h]

theorem recognize_ok (h : p i = .ok (r, a)) :
    recognize p i = .ok (r, i.take (i.length - r.length)) := by
  simp only [recognize, h]

theorem recognize_append {w : List Char} (h : p (w ++ r) = .ok (r, a)) :
    recognize p (w ++ r) = .ok (r, w) := by
  rw [recognize_ok h, List.length_append, Nat.add_sub_cancel, List.take_left' rfl]

end Steps

/-! ## Lists printed with a separator -/

section Joined

variable {sep : Parser β} {p : Parser α} {Txt : γ → List Char → Prop} {R : γ → α → Prop}
  {Stop : List Char → Prop} {r : List Char}

/-- The items after the first of a list printed with `", "` between items, then `r`. -/
def joinedTail (ss : List (List Char)) (r : List Char) : List Char :=
  (ss.map fun s => ", ".data ++ s).flatten ++ r

@[simp] theorem joinedTail_nil (r : List Char) : joinedTail [] r = r := rfl

theorem joinedTail_cons (s : List Char) (ss : List (List Char)) (r : List Char) :
    joinedTail (s :: ss) r = ", ".data ++ (s ++ joinedTail ss r) := by
  simp [joinedTail]

/-- What follows an item of a printed list is the next item's separator, or `r`. -/
theorem joinedTail_stop (hstop : ∀ x, Stop (", ".data ++ x)) (hr : Stop r) :
    ∀ ss, Stop (joinedTail ss r)
  | [] => hr
  | s :: ss => by rw [joinedTail_cons]; exact hstop _

/-- Items, each after its own separator text. -/
def gapped (gss : List (List Char × List Char)) : List Char :=
  (gss.map fun gs => gs.1 ++ gs.2).flatten

theorem gapped_cons_append (g s : List Char) (gss : List (List Char × List Char)) (r : List Char) :
    gapped ((g, s) :: gss) ++ r = g ++ (s ++ (gapped gss ++ r)) := by
  simp [gapped]

theorem joinedTail_eq_gapped (ss : List (List Char)) (r : List Char) :
    joinedTail ss r = gapped (ss.map ((", ".data, ·))) ++ r := by
  simp [joinedTail, gapped, Function.comp_def]

/-- What follows an item of a list with separator texts is the next separator, or `r`. -/
theorem gapped_stop {Gap : List Char → Prop} {bs : List γ} {gss : List (List Char × List Char)}
    (hstop : ∀ g x, Gap g → Stop (g ++ x)) (hr : Stop r)
    (hbs : List.Forall₂ (fun b gs => Gap gs.1 ∧ Txt b gs.2) bs gss) : Stop (gapped gss ++ r) := by
  cases hbs with
  | nil => exact hr
  | cons h _ => rw [gapped_cons_append]; exact hstop _ _ h.1

section Gapped

variable {Gap : List Char → Prop} (hp : Consumes p) (hsep : Consumes sep)
  (hsepF : ∀ g b s x, Gap g → Txt b s → ∃ o, sep (g ++ (s ++ x)) = .ok (s ++ x, o))
  (hgap : ∀ g, Gap g → g ≠ [])
  (hend : sep r = .error .error)
  (hitem : ∀ b s x, Txt b s → Stop x → ∃ a, p (s ++ x) = .ok (x, a) ∧ R b a)
  (hstop : ∀ g x, Gap g → Stop (g ++ x)) (hr : Stop r)
include hp hsep hsepF hgap hend hitem hstop hr

/-- The loop of `separated_list0` on items after the first, each after a separator
text the separator reads before an item, reads them all and stops before `r`. -/
theorem sepLoop_gapped {bs : List γ} {gss : List (List Char × List Char)}
    (hbs : List.Forall₂ (fun b gs => Gap gs.1 ∧ Txt b gs.2) bs gss) :
    ∃ as, sepLoop sep p ((gapped gss ++ r).length + 1) (gapped gss ++ r) = .ok (r, as) ∧
      List.Forall₂ R bs as := by
  induction hbs with
  | nil => exact ⟨[], sepLoop_sep_error (Nat.succ_pos _) hend, .nil⟩
  | @cons b gs bs gss hbs hrest ih =>
      obtain ⟨g, s⟩ := gs
      obtain ⟨o, ho⟩ := hsepF g b s (gapped gss ++ r) hbs.1 hbs.2
      obtain ⟨a, ha, hR⟩ := hitem b s _ hbs.2 (gapped_stop hstop hr hrest)
      obtain ⟨as, has, hRs⟩ := ih
      have hg := hgap g hbs.1
      refine ⟨a :: as, ?_, .cons hR hRs⟩
      rw [gapped_cons_append, sepLoop_ok hp hsep (Nat.lt_succ_self _) ho
        (by simp [List.length_append]; exact List.length_pos.mpr hg) ha, has]

/-- `separated_list0` on a non-empty list with separator texts reads it all. -/
theorem separatedList0_gapped {b : γ} {s : List Char} {bs : List γ}
    {gss : List (List Char × List Char)} (hb : Txt b s)
    (hbs : List.Forall₂ (fun b gs => Gap gs.1 ∧ Txt b gs.2) bs gss) :
    ∃ as, separatedList0 sep p (s ++ (gapped gss ++ r)) = .ok (r, as) ∧
      List.Forall₂ R (b :: bs) as := by
  obtain ⟨a, ha, hR⟩ := hitem b s _ hb (gapped_stop hstop hr hbs)
  obtain ⟨as, has, hRs⟩ := sepLoop_gapped hp hsep hsepF hgap hend hitem hstop hr hbs
  exact ⟨a :: as, by simp only [separatedList0, ha, has], .cons hR hRs⟩

end Gapped

section Items

variable (hp : Consumes p) (hsep : Consumes sep)
  (hsepF : ∀ b s x, Txt b s → ∃ o, sep (", ".data ++ (s ++ x)) = .ok (s ++ x, o))
  (hend : sep r = .error .error)
  (hitem : ∀ b s x, Txt b s → Stop x → ∃ a, p (s ++ x) = .ok (x, a) ∧ R b a)
  (hstop : ∀ x, Stop (", ".data ++ x)) (hr : Stop r)
include hp hsep hsepF hend hitem hstop hr

/-- The loop of `separated_list0` on the items of a printed list after the first reads
them all and stops before `r`: the separator reads `", "` before an item and fails on
`r`, and each item's text `s` reads back before whatever may follow it. -/
theorem sepLoop_joined {bs : List γ} {ss : List (List Char)} (hbs : List.Forall₂ Txt bs ss) :
    ∃ as, sepLoop sep p ((joinedTail ss r).length + 1) (joinedTail ss r) = .ok (r, as) ∧
      List.Forall₂ R bs as := by
  rw [joinedTail_eq_gapped]
  exact sepLoop_gapped hp hsep
    (fun g b s x (hg : g = ", ".data) hb => by subst hg; exact hsepF b s x hb)
    (fun g hg => by subst hg; simp) hend hitem (fun g x hg => by subst hg; exact hstop x) hr
    (List.forall₂_map_right_iff.mpr (hbs.imp fun _ _ h => ⟨rfl, h⟩))

/-- `separated_list1` on a non-empty printed list reads it all. -/
theorem separatedList1_joined {b : γ} {s : List Char} {bs : List γ} {ss : List (List Char)}
    (hb : Txt b s) (hbs : List.Forall₂ Txt bs ss) :
    ∃ as, separatedList1 sep p (s ++ joinedTail ss r) = .ok (r, as) ∧ List.Forall₂ R (b :: bs) as := by
  obtain ⟨a, ha, hR⟩ := hitem b s _ hb (joinedTail_stop hstop hr ss)
  obtain ⟨as, has, hRs⟩ := sepLoop_joined hp hsep hsepF hend hitem hstop hr hbs
  exact ⟨a :: as, by simp only [separatedList1, ha, has], .cons hR hRs⟩

/-- `separated_list0` on a non-empty printed list reads it all. -/
theorem separatedList0_joined {b : γ} {s : List Char} {bs : List γ} {ss : List (List Char)}
    (hb : Txt b s) (hbs : List.Forall₂ Txt bs ss) :
    ∃ as, separatedList0 sep p (s ++ joinedTail ss r) = .ok (r, as) ∧ List.Forall₂ R (b :: bs) as := by
  obtain ⟨a, ha, hR⟩ := hitem b s _ hb (joinedTail_stop hstop hr ss)
  obtain ⟨as, has, hRs⟩ := sepLoop_joined hp hsep hsepF hend hitem hstop hr hbs
  exact ⟨a :: as, by simp only [separatedList0, ha, has], .cons hR hRs⟩

end Items

/-- `separated_list0` reads no item where the item parser fails. -/
theorem separatedList0_error (hnil : p r = .error .error) :
    separatedList0 sep p r = .ok (r, []) := by
  simp only [separatedList0, hnil]

end Joined

end Modus.Nom
