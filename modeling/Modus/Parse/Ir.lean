import Modus.Parse.Nom
import Modus.Translate.Lowering

/-!
# Printing and parsing the IR

`logic.rs` prints terms, literals and clauses (`Display`) and reads literals and
clauses back (`FromStr`) with the parsers of `logic::parser`, which its comment says
are "only for convenience in writing tests". A constant is printed between double
quotes as it is, with nothing escaped, and read back by `constant` as the characters
up to the next double quote, of which `is_not` wants at least one. A name is read by
`literal_identifier`: an ASCII letter, then ASCII letters, digits, `_` and `-`.
`from_str` returns the output of the parser and ignores what it leaves unread.

Parsed literals carry the position of the span they start at. `SpannedPosition` is
modelled by the offset and length the engine reads; the parser sets the offset, the
number of characters before the literal (nom_locate counts bytes, the same count on
ASCII input), and the length `0`.

The round trip holds when every name is an identifier and every constant has at
least one character and no double quote (`Literal.fromStr_display`,
`Clause.fromStr_display`); the proofs read the printed text back piece by piece,
each piece followed by what the printer puts after it. The empty constant, which
`convert_format_string` puts in every chain it builds, prints as `""` and does not
read back: the literal loses its arguments (`fromStr_display_empty_constant`).
Every clause the parser reads is of the first kind, since `constant` and
`literal_identifier` return only such pieces (`Parser.clause_yields`), so the text of
any clause it reads prints again as text it reads back.

## Main results

* `Parser.literalIdentifier_eq` — nom's `literal_identifier` reads a letter and the
  identifier characters after it, as `Translate.literalIdentifier` does.
* `Literal.fromStr_display`, `Clause.fromStr_display` — the round trips.
* `Clause.fromStr_display_fromStr` — every clause the parser reads is one of them.
* `fromStr_display_empty_constant` — the empty constant breaks them.
-/

namespace Modus.Logic

open Modus.Nom

/-! ## Printing -/

/-- `Display for IRTerm`: a constant between double quotes, as it is; a user variable
by its name; an auxiliary variable as `__AUX_` and its id. A renamed variable is
`unimplemented!()`, a panic. -/
def IRTerm.display : IRTerm → Except String (List Char)
  | .constant s => .ok ('"' :: (s.data ++ ['"']))
  | .userVariable s => .ok s.data
  | .auxiliaryVariable i => .ok ("__AUX_".data ++ (toString i).data)
  | .renamedVariable _ _ => .error "not implemented"

/-- `display_sep(seq, sep)`: the items with `sep` between them. -/
def displaySep (sep : List Char) : List (List Char) → List Char
  | [] => []
  | s :: ss => s ++ (ss.map (sep ++ ·)).flatten

theorem sublist_displaySep {sep s : List Char} {ss : List (List Char)} (h : s ∈ ss) :
    List.Sublist s (displaySep sep ss) := by
  cases h with
  | head => exact List.sublist_append_left _ _
  | tail _ h =>
      exact ((List.sublist_append_right sep s).trans
        (List.sublist_flatten_of_mem (List.mem_map_of_mem _ h))).trans (List.sublist_append_right _ _)

/-- `Display for Literal`: the predicate, and the arguments in parentheses if there
are any. -/
def Literal.display (l : Literal) : Except String (List Char) :=
  match l.args with
  | [] => .ok l.predicate.data
  | args => (args.mapM IRTerm.display).map fun ss =>
      l.predicate.data ++ '(' :: (displaySep ", ".data ss ++ [')'])

/-- `Display for Clause`: `head :- body`, the body literals separated by `", "`. -/
def Clause.display (c : Clause) : Except String (List Char) := do
  let head ← c.head.display
  let body ← c.body.mapM Literal.display
  pure (head ++ " :- ".data ++ displaySep ", ".data body)

/-! ## Parsing -/

namespace Parser

/-- `ws(inner)`: `inner` between runs of spaces and tabs. -/
def ws {α : Type} (inner : Parser α) : Parser α := delimited space0 inner space0

/-- `constant`: at least one character between double quotes. -/
def constant : Parser (List Char) := delimited (tag ['"']) (isNot ['"']) (tag ['"'])

/-- `literal_identifier`: an ASCII letter, then ASCII letters, digits, `_` and `-`. -/
def literalIdentifier : Parser (List Char) :=
  recognize (pair alpha1 (many0 (alt alphanumeric1 (alt (tag ['_']) (tag ['-'])))))

/-- `variable`. -/
def «variable» : Parser (List Char) := literalIdentifier

/-- `term`: a constant or a user variable. -/
def term : Parser IRTerm :=
  alt (map constant fun s => .constant ⟨s⟩) (map «variable» fun s => .userVariable ⟨s⟩)

/-- The parser `literal(term)` runs once it has the position `pos`: a name, and
arguments in parentheses if they parse, separated by commas. -/
def literalAt (term : Parser IRTerm) (pos : Option SpannedPosition) : Parser Literal :=
  map (pair literalIdentifier (opt (delimited (terminated (tag ['(']) space0)
      (separatedList1 (ws (tag [','])) term) (preceded space0 (tag [')'])))))
    fun (name, args) => ⟨pos, ⟨name⟩, args.getD []⟩

/-- `literal(term)` on the input of a string of `total` characters. The position is
the offset of the span the literal starts at. -/
def literal (term : Parser IRTerm) (total : Nat) : Parser Literal := fun i =>
  literalAt term (some ⟨total - i.length, 0⟩) i

/-- `clause(term)`: a literal, `:-`, and literals separated by commas. -/
def clause (term : Parser IRTerm) (total : Nat) : Parser Clause :=
  map (separatedPair (literal term total) (ws (tag [':', '-']))
      (separatedList0 (ws (tag [','])) (literal term total)))
    fun (head, body) => ⟨head, body⟩

end Parser

/-- `FromStr for Literal`: what `literal(term)` reads, the rest ignored. -/
def Literal.fromStr (s : String) : Except Err Literal :=
  (Parser.literal Parser.term s.length s.data).map Prod.snd

/-- `FromStr for Clause`: what `clause(term)` reads, the rest ignored. -/
def Clause.fromStr (s : String) : Except Err Clause :=
  (Parser.clause Parser.term s.length s.data).map Prod.snd

/-! ## `literal_identifier` -/

namespace Parser

open Translate (identChar)

theorem alphanumeric_identChar {c : Char} (h : c.isAlphanum = true) : identChar c = true := by
  simp [identChar, h]

theorem alpha_identChar {c : Char} (h : c.isAlpha = true) : identChar c = true := by
  simp [identChar, Char.isAlphanum, h]

/-- After its first letters, `literal_identifier` reads the identifier characters that
follow. -/
theorem many0_identChars (i : List Char) :
    ∃ xs, many0 (alt alphanumeric1 (alt (tag ['_']) (tag ['-']))) i = .ok (i.dropWhile identChar, xs) := by
  have hc : Consumes (alt alphanumeric1 (alt (tag ['_']) (tag ['-']))) :=
    alt_consumes (takeWhile1_consumes _) (alt_consumes (tag_consumes _) (tag_consumes _))
  match i with
  | [] => exact ⟨[], many0_error rfl⟩
  | c :: cs =>
      by_cases hnum : c.isAlphanum = true
      · have hstep : alt alphanumeric1 (alt (tag ['_']) (tag ['-'])) (c :: cs) =
            .ok ((c :: cs).dropWhile Char.isAlphanum, (c :: cs).takeWhile Char.isAlphanum) :=
          alt_ok (by simp [alphanumeric1, takeWhile1, List.takeWhile_cons, hnum])
        have hlt : ((c :: cs).dropWhile Char.isAlphanum).length < (c :: cs).length := by
          rw [List.dropWhile_cons_of_pos hnum]
          exact Nat.lt_succ_of_le (List.dropWhile_suffix _).length_le
        obtain ⟨xs, hxs⟩ := many0_identChars ((c :: cs).dropWhile Char.isAlphanum)
        rw [dropWhile_dropWhile_of_imp (fun _ => alphanumeric_identChar)] at hxs
        exact ⟨_, by rw [many0_ok hc hstep hlt, hxs]⟩
      · have hnum' : alphanumeric1 (c :: cs) = .error .error := takeWhile1_error (by simpa using hnum)
        by_cases hid : identChar c = true
        · have hstep : alt alphanumeric1 (alt (tag ['_']) (tag ['-'])) (c :: cs) = .ok (cs, [c]) := by
            rw [alt_error hnum']
            have : c = '_' ∨ c = '-' := by simpa [identChar, hnum] using hid
            rcases this with rfl | rfl
            · exact alt_ok (tag_append ['_'] cs)
            · rw [alt_error (tag_cons_error (by decide))]; exact tag_append ['-'] cs
          obtain ⟨xs, hxs⟩ := many0_identChars cs
          rw [List.dropWhile_cons_of_pos hid]
          exact ⟨_, by rw [many0_ok hc hstep (Nat.lt_succ_self _), hxs]⟩
        · have hfail : alt alphanumeric1 (alt (tag ['_']) (tag ['-'])) (c :: cs) = .error .error := by
            have h₁ : '_' ≠ c := fun h => hid (by simp [identChar, ← h])
            have h₂ : '-' ≠ c := fun h => hid (by simp [identChar, ← h])
            rw [alt_error hnum', alt_error (tag_cons_error h₁), tag_cons_error h₂]
          rw [List.dropWhile_cons_of_neg hid]
          exact ⟨[], many0_error hfail⟩
termination_by i.length

/-- **`literal_identifier` reads an identifier.** nom's `literal_identifier` is
`Translate.literalIdentifier`: an ASCII letter and the identifier characters after it,
the rest returned first. -/
theorem literalIdentifier_eq (i : List Char) :
    literalIdentifier i = match Translate.literalIdentifier i with
      | some p => .ok p
      | none => .error .error := by
  match i with
  | [] => rfl
  | c :: cs =>
      by_cases ha : c.isAlpha = true
      · have halpha : alpha1 (c :: cs) =
            .ok ((c :: cs).dropWhile Char.isAlpha, (c :: cs).takeWhile Char.isAlpha) := by
          simp [alpha1, takeWhile1, List.takeWhile_cons, ha]
        obtain ⟨xs, hxs⟩ := many0_identChars ((c :: cs).dropWhile Char.isAlpha)
        rw [dropWhile_dropWhile_of_imp (fun _ => alpha_identChar)] at hxs
        rw [literalIdentifier, recognize_ok (pair_ok halpha hxs), take_sub_dropWhile]
        simp [Translate.literalIdentifier, ha, List.dropWhile_cons_of_pos (alpha_identChar ha),
          List.takeWhile_cons_of_pos (alpha_identChar ha)]
      · simp [literalIdentifier, recognize, pair, alpha1, takeWhile1, List.takeWhile_cons, ha,
          Translate.literalIdentifier]

end Parser

/-! ## Reading printed text back -/

open Translate (identChar)

/-- A name `literal_identifier` reads whole: an ASCII letter, then identifier
characters. -/
def isIdentifier : List Char → Bool
  | c :: cs => c.isAlpha && cs.all identChar
  | [] => false

/-- What may follow a name: nothing, or a character that is not an identifier
character. -/
def EndsName (r : List Char) : Prop := ∀ c ∈ r.head?, identChar c = false

/-- What may follow a literal: what may follow a name, other than an opening
parenthesis. -/
def EndsLiteral (r : List Char) : Prop := EndsName r ∧ ∀ c ∈ r.head?, c ≠ '('

/-- What follows a term inside a literal: a comma, or the closing parenthesis. -/
def EndsTerm (r : List Char) : Prop := ∀ c ∈ r.head?, c = ',' ∨ c = ')'

theorem EndsTerm.endsName {r : List Char} (h : EndsTerm r) : EndsName r := fun c hc => by
  rcases h c hc with rfl | rfl <;> rfl

/-- What `space0` stops at: nothing, or a character other than a blank. -/
def StartsUnblank (r : List Char) : Prop := ∀ c ∈ r.head?, isBlank c = false

theorem space0_of_startsUnblank {i : List Char} (h : StartsUnblank i) : space0 i = .ok (i, []) :=
  takeWhile0_of_stop h

theorem isBlank_of_isAlpha {c : Char} (h : c.isAlpha = true) : isBlank c = false := by
  simp only [isBlank, Bool.or_eq_false_iff, beq_eq_false_iff_ne, ne_eq]
  constructor <;> rintro rfl <;> exact absurd h (by decide)

theorem isIdentifier_iff {w : List Char} :
    isIdentifier w = true ↔ ∃ c cs, w = c :: cs ∧ c.isAlpha = true ∧ ∀ d ∈ cs, identChar d = true := by
  cases w <;> simp [isIdentifier, List.all_eq_true, and_assoc]

namespace Parser

theorem literalIdentifier_append {w r : List Char} (hw : isIdentifier w = true) (hr : EndsName r) :
    literalIdentifier (w ++ r) = .ok (r, w) := by
  obtain ⟨c, cs, rfl, hc, hcs⟩ := isIdentifier_iff.mp hw
  obtain ⟨h₁, h₂⟩ := takeWhile_append_of_stop hcs hr
  rw [literalIdentifier_eq]
  simp [Translate.literalIdentifier, hc, h₁, h₂]

theorem constant_append {w r : List Char} (hne : w ≠ []) (hw : '"' ∉ w) :
    constant ('"' :: (w ++ '"' :: r)) = .ok (r, w) :=
  delimited_ok (tag_append ['"'] _)
    (takeWhile1_append hne (fun c hc => by simpa using ne_of_mem_of_not_mem hc hw) (by simp))
    (tag_append ['"'] r)

/-- `ws(tag(","))` reads the separator `", "` the printer puts between items. -/
theorem ws_comma {y : List Char} (hy : StartsUnblank y) :
    ws (tag [',']) (", ".data ++ y) = .ok (y, [',']) :=
  delimited_ok (takeWhile0_of_stop fun _ hc => by cases hc; rfl) (tag_append [','] _)
    (takeWhile0_append (w := [' ']) (by simp [isBlank]) hy)

/-- `ws(tag(":-"))` reads the `" :- "` between a head and a body. -/
theorem ws_neck {y : List Char} (hy : StartsUnblank y) :
    ws (tag [':', '-']) (" :- ".data ++ y) = .ok (y, [':', '-']) :=
  delimited_ok (takeWhile0_append (w := [' ']) (by simp [isBlank]) fun _ hc => by cases hc; rfl)
    (tag_append [':', '-'] _) (takeWhile0_append (w := [' ']) (by simp [isBlank]) hy)

theorem ws_comma_error {y : List Char} (hy : StartsUnblank y) (hc : ∀ c ∈ y.head?, c ≠ ',') :
    ws (tag [',']) y = .error .error := by
  refine delimited_error_mid (takeWhile0_of_stop hy) (tag_error fun h => ?_)
  obtain ⟨t, rfl⟩ := h
  exact hc ',' rfl rfl

theorem literalIdentifier_consumes : Consumes literalIdentifier :=
  recognize_consumes (pair_consumes (takeWhile1_consumes _) (many0_consumes
    (alt_consumes (takeWhile1_consumes _) (alt_consumes (tag_consumes _) (tag_consumes _)))))

theorem term_consumes : Consumes term :=
  alt_consumes (map_consumes (delimited_consumes (tag_consumes _) (takeWhile1_consumes _)
    (tag_consumes _)) _) (map_consumes literalIdentifier_consumes _)

theorem ws_consumes {α : Type} {p : Parser α} (hp : Consumes p) : Consumes (ws p) :=
  delimited_consumes (takeWhile0_consumes _) hp (takeWhile0_consumes _)

theorem literalAt_consumes {term : Parser IRTerm} (hterm : Consumes term)
    (pos : Option SpannedPosition) : Consumes (literalAt term pos) :=
  map_consumes (pair_consumes literalIdentifier_consumes (opt_consumes (delimited_consumes
    (terminated_consumes (tag_consumes _) (takeWhile0_consumes _))
    (separatedList1_consumes hterm (ws_consumes (tag_consumes _)))
    (preceded_consumes (takeWhile0_consumes _) (tag_consumes _))))) _

theorem literal_consumes (total : Nat) : Consumes (literal term total) := fun i =>
  literalAt_consumes term_consumes _ i

end Parser

/-- A term whose printed text reads back: a user variable named by an identifier,
or a constant of at least one character and no double quote. -/
def IRTerm.reparses : IRTerm → Bool
  | .constant s => !s.data.isEmpty && !s.data.contains '"'
  | .userVariable s => isIdentifier s.data
  | _ => false

/-- A literal whose printed text reads back. -/
def Literal.reparses (l : Literal) : Bool := isIdentifier l.predicate.data && l.args.all IRTerm.reparses

/-- A clause whose printed text reads back. -/
def Clause.reparses (c : Clause) : Bool := c.head.reparses && c.body.all Literal.reparses

/-- Two clauses are equal when source positions are ignored. -/
def Clause.eqIgnoringPosition (c d : Clause) : Prop :=
  c.head.eqIgnoringPosition d.head ∧ List.Forall₂ Literal.eqIgnoringPosition c.body d.body

/-- What `Display for Literal` can print: the predicate alone, for a literal without
arguments, or the predicate and the printed arguments in parentheses. -/
theorem Literal.display_eq_ok {l : Literal} {s : List Char} (h : l.display = .ok s) :
    (l.args = [] ∧ s = l.predicate.data) ∨
      ∃ t ts ss, l.args = t :: ts ∧ (t :: ts).mapM IRTerm.display = .ok ss ∧
        s = l.predicate.data ++ '(' :: (displaySep ", ".data ss ++ [')']) := by
  obtain ⟨pos, p, _ | ⟨t, ts⟩⟩ := l
  · cases h; exact .inl ⟨rfl, rfl⟩
  · cases hm : (t :: ts).mapM IRTerm.display <;>
      simp only [Literal.display, hm, Except.map, Except.ok.injEq, reduceCtorEq] at h
    exact .inr ⟨t, ts, _, rfl, hm, h.symm⟩

/-- A printed term starts with a double quote, a letter, or the `_` of `__AUX_`,
when user variables are named by identifiers. -/
theorem IRTerm.display_startsUnblank {t : IRTerm} {s : List Char}
    (hv : ∀ w, t = .userVariable w → isIdentifier w.data = true) (hs : t.display = .ok s)
    (x : List Char) : StartsUnblank (s ++ x) := by
  cases t with
  | constant w => cases hs; exact fun _ hc => by cases hc; rfl
  | userVariable w =>
      cases hs
      obtain ⟨c, cs, hw, hc, -⟩ := isIdentifier_iff.mp (hv w rfl)
      rw [hw]
      exact fun _ hd => by cases hd; exact isBlank_of_isAlpha hc
  | auxiliaryVariable => cases hs; exact fun _ hc => by cases hc; rfl
  | renamedVariable => cases hs

theorem Literal.display_startsUnblank {l : Literal} {s : List Char}
    (hp : isIdentifier l.predicate.data = true) (hs : l.display = .ok s) (x : List Char) :
    StartsUnblank (s ++ x) ∧ EndsName (", ".data ++ x) := by
  obtain ⟨c, cs, hw, hc, -⟩ := isIdentifier_iff.mp hp
  refine ⟨?_, fun _ hd => by cases hd; rfl⟩
  rcases Literal.display_eq_ok hs with ⟨-, rfl⟩ | ⟨-, -, -, -, -, rfl⟩ <;> rw [hw] <;>
    exact fun _ hd => by cases hd; exact isBlank_of_isAlpha hc

theorem Literal.isIdentifier_of_reparses {l : Literal} (hl : l.reparses = true) :
    isIdentifier l.predicate.data = true :=
  (Bool.and_eq_true _ _).mp hl |>.1

theorem IRTerm.display_ok {t : IRTerm} (ht : t.reparses = true) : ∃ s, t.display = .ok s := by
  cases t <;> first | exact ⟨_, rfl⟩ | cases ht

/-- `mapM` of a printer succeeds when the printer succeeds on every item. -/
theorem mapM_display_ok {α : Type} {f : α → Except String (List Char)} {xs : List α}
    (h : ∀ x ∈ xs, ∃ s, f x = .ok s) : ∃ ss, xs.mapM f = .ok ss := by
  rcases hm : xs.mapM f with e | ss
  · obtain ⟨x, hx, e', he⟩ := mapM_isError.mp ⟨e, hm⟩
    obtain ⟨s, hs⟩ := h x hx
    rw [hs] at he; cases he
  · exact ⟨ss, rfl⟩

theorem Literal.display_ok {l : Literal} (h : ∀ t ∈ l.args, ∃ s, t.display = .ok s) :
    ∃ s, l.display = .ok s := by
  obtain ⟨pos, p, _ | ⟨t, ts⟩⟩ := l
  · exact ⟨_, rfl⟩
  · obtain ⟨ss, hss⟩ := mapM_display_ok h
    exact ⟨_, by simp only [Literal.display, hss]; rfl⟩

theorem Literal.display_ok_of_reparses {l : Literal} (hl : l.reparses = true) :
    ∃ s, l.display = .ok s := by
  simp only [Literal.reparses, Bool.and_eq_true, List.all_eq_true] at hl
  exact Literal.display_ok fun t ht => IRTerm.display_ok (hl.2 t ht)

/-! ## The round trips -/

namespace Parser

/-- A term reads back from its printed text, before whatever may follow a name. -/
theorem term_display_append {t : IRTerm} {s x : List Char} (ht : t.reparses = true)
    (hs : t.display = .ok s) (hx : EndsName x) : term (s ++ x) = .ok (x, t) := by
  cases t with
  | constant w =>
      cases hs
      simp [IRTerm.reparses] at ht
      rw [List.cons_append, List.append_assoc, List.singleton_append]
      exact alt_ok (map_ok (constant_append ht.1 ht.2) _)
  | userVariable w =>
      cases hs
      obtain ⟨c, cs, hw, hc, -⟩ := isIdentifier_iff.mp ht
      have hq : '"' ≠ c := by rintro rfl; exact absurd hc (by decide)
      have hcon : constant (w.data ++ x) = .error .error := by
        rw [hw]; exact delimited_error_left (tag_cons_error hq)
      rw [term, alt_error (map_error hcon _)]
      exact map_ok (literalIdentifier_append ht hx) _
  | auxiliaryVariable | renamedVariable => cases ht

section Terms

variable {term : Parser IRTerm} {good : IRTerm → Bool} (hcons : Consumes term)
  (hterm : ∀ t s x, good t = true → t.display = .ok s → EndsTerm x → term (s ++ x) = .ok (x, t))
  (hstart : ∀ t s x, good t = true → t.display = .ok s → StartsUnblank (s ++ x))
include hcons hterm hstart

/-- A literal reads back from its printed text, before whatever may follow a literal,
when its predicate is an identifier and `term` reads back each of its arguments. -/
theorem literalAt_display_append {l : Literal} {s r : List Char}
    (hp : isIdentifier l.predicate.data = true) (hargs : ∀ t ∈ l.args, good t = true)
    (hs : l.display = .ok s) (hr : EndsLiteral r) (pos : Option SpannedPosition) :
    literalAt term pos (s ++ r) = .ok (r, ⟨pos, l.predicate, l.args⟩) := by
  rcases Literal.display_eq_ok hs with ⟨hnil, rfl⟩ | ⟨t, ts, ss, hargs', hss, rfl⟩
  · have hopen : tag ['('] r = .error .error :=
      tag_error fun ⟨u, hu⟩ => hr.2 '(' (by rw [← hu]; rfl) rfl
    rw [hnil]
    exact map_ok (pair_ok (literalIdentifier_append hp hr.1)
      (opt_error (delimited_error_left (map_error (pair_error_left hopen) _)))) _
  · rw [hargs'] at hargs ⊢
    obtain _ | @⟨_, st, _, sts, hb, hbs⟩ := (List.forall₂_and_left _ _).mpr ⟨hargs, mapM_forall₂ hss⟩
    obtain ⟨as, has, hR⟩ := separatedList1_joined hcons (ws_consumes (tag_consumes _))
      (fun _ _ _ h => ⟨_, ws_comma (hstart _ _ _ h.1 h.2)⟩)
      (ws_comma_error (y := ')' :: r) (fun _ hc => by cases hc; rfl) fun _ hc => by cases hc; decide)
      (fun _ _ _ h hx => ⟨_, hterm _ _ _ h.1 h.2 hx, rfl⟩)
      (fun _ _ hc => by cases hc; exact .inl rfl) (fun _ hc => by cases hc; exact .inr rfl) hb hbs
    rw [List.forall₂_eq_eq_eq] at hR
    subst hR
    have htext : l.predicate.data ++ '(' :: (displaySep ", ".data (st :: sts) ++ [')']) ++ r =
        l.predicate.data ++ '(' :: (st ++ joinedTail sts (')' :: r)) := by
      simp [displaySep, joinedTail]
    rw [htext]
    exact map_ok (pair_ok (literalIdentifier_append hp fun _ hc => by cases hc; rfl)
      (opt_ok (delimited_ok (terminated_ok (tag_append ['('] _)
          (space0_of_startsUnblank (hstart _ _ _ hb.1 hb.2))) has
        (preceded_ok (space0_of_startsUnblank fun _ hc => by cases hc; rfl)
          (tag_append [')'] r))))) _

end Terms

/-- A literal reads back from its printed text, before whatever may follow a literal;
the parser gives it the offset of the text. -/
theorem literal_display_append {l : Literal} {s r : List Char} (hl : l.reparses = true)
    (hs : l.display = .ok s) (hr : EndsLiteral r) (total : Nat) :
    literal term total (s ++ r) =
      .ok (r, ⟨some ⟨total - (s ++ r).length, 0⟩, l.predicate, l.args⟩) := by
  simp only [Literal.reparses, Bool.and_eq_true, List.all_eq_true] at hl
  exact literalAt_display_append term_consumes
    (fun _ _ _ ht hs hx => term_display_append ht hs hx.endsName)
    (fun _ _ x ht hs => IRTerm.display_startsUnblank (fun _ hw => by subst hw; exact ht) hs x)
    hl.1 hl.2 hs hr _

/-- The body of a clause reads back from its printed text, to the end of the input. -/
theorem body_display {body : List Literal} {ss : List (List Char)}
    (hb : ∀ l ∈ body, l.reparses = true) (hss : body.mapM Literal.display = .ok ss) (total : Nat) :
    StartsUnblank (displaySep ", ".data ss) ∧
      ∃ body', separatedList0 (ws (tag [','])) (literal term total) (displaySep ", ".data ss) =
        .ok ([], body') ∧ List.Forall₂ Literal.eqIgnoringPosition body body' := by
  obtain _ | @⟨l, sl, body, ss, hl, hls⟩ := (List.forall₂_and_left _ _).mpr ⟨hb, mapM_forall₂ hss⟩
  · exact ⟨(fun _ hc => by cases hc), [], separatedList0_error rfl, .nil⟩
  · have htext : displaySep ", ".data (sl :: ss) = sl ++ joinedTail ss [] := by
      simp [displaySep, joinedTail]
    rw [htext]
    refine ⟨(Literal.display_startsUnblank (Literal.isIdentifier_of_reparses hl.1) hl.2 _).1,
      separatedList0_joined (literal_consumes total) (ws_consumes (tag_consumes _))
      (fun _ _ _ h => ⟨_, ws_comma
        (Literal.display_startsUnblank (Literal.isIdentifier_of_reparses h.1) h.2 _).1⟩)
      (ws_comma_error (y := []) (fun _ hc => by cases hc) fun _ hc => by cases hc)
      (fun _ _ _ h hx => ⟨_, literal_display_append h.1 h.2 hx total, rfl, rfl⟩)
      (fun _ => ⟨(fun _ hc => by cases hc; rfl), fun _ hc => by cases hc; decide⟩)
      ⟨(fun _ hc => by cases hc), fun _ hc => by cases hc⟩ hl hls⟩

end Parser

/-- **The literal round trip.** A literal whose names are identifiers and whose
constants have at least one character and no double quote prints, and reads back as
itself when positions are ignored. -/
theorem Literal.fromStr_display {l : Literal} (hl : l.reparses = true) :
    ∃ s, l.display = .ok s ∧ ∃ l', Literal.fromStr ⟨s⟩ = .ok l' ∧ l.eqIgnoringPosition l' := by
  obtain ⟨s, hs⟩ := Literal.display_ok_of_reparses hl
  have h := Parser.literal_display_append hl hs (r := [])
    ⟨(fun _ hc => by cases hc), fun _ hc => by cases hc⟩ s.length
  rw [List.append_nil] at h
  exact ⟨s, hs, _, congrArg (Except.map Prod.snd) h, rfl, rfl⟩

/-- **The clause round trip**, for clauses of such literals. -/
theorem Clause.fromStr_display {c : Clause} (hc : c.reparses = true) :
    ∃ s, c.display = .ok s ∧ ∃ c', Clause.fromStr ⟨s⟩ = .ok c' ∧ c.eqIgnoringPosition c' := by
  simp only [Clause.reparses, Bool.and_eq_true, List.all_eq_true] at hc
  obtain ⟨sh, hsh⟩ := Literal.display_ok_of_reparses hc.1
  obtain ⟨ss, hss⟩ := mapM_display_ok fun l hl => Literal.display_ok_of_reparses (hc.2 l hl)
  have hs : c.display = .ok (sh ++ " :- ".data ++ displaySep ", ".data ss) := by
    simp only [Clause.display, hsh, hss, ok_bind]; rfl
  obtain ⟨hD, body', hbody, hR⟩ := Parser.body_display hc.2 hss
    (sh ++ " :- ".data ++ displaySep ", ".data ss).length
  have hhead := Parser.literal_display_append hc.1 hsh (r := " :- ".data ++ displaySep ", ".data ss)
    ⟨(fun _ hc => by cases hc; rfl), fun _ hc => by cases hc; decide⟩
    (sh ++ " :- ".data ++ displaySep ", ".data ss).length
  rw [← List.append_assoc] at hhead
  exact ⟨_, hs, _, congrArg (Except.map Prod.snd)
    (map_ok (separatedPair_ok hhead (Parser.ws_neck hD) hbody) _), ⟨rfl, rfl⟩, hR⟩

/-! ## What the parser accepts -/

namespace Parser

theorem literalIdentifier_yields : Yields (fun w => isIdentifier w = true) literalIdentifier := by
  intro i r w h
  rw [literalIdentifier_eq] at h
  match i with
  | [] => cases h
  | c :: cs =>
      by_cases hc : c.isAlpha = true
      · simp only [Translate.literalIdentifier, hc, if_true] at h
        cases h
        exact isIdentifier_iff.mpr ⟨c, _, rfl, hc, fun _ hd => List.mem_takeWhile_imp hd⟩
      · simp [Translate.literalIdentifier, hc] at h

theorem constant_yields : Yields (fun w => w ≠ [] ∧ '"' ∉ w) constant :=
  delimited_yields ((takeWhile1_yields _).mono fun _ ⟨hne, hw⟩ =>
    ⟨hne, fun hq => by simpa using hw _ hq⟩)

theorem term_yields : Yields (fun t => t.reparses = true) term :=
  alt_yields
    (map_yields constant_yields fun w ⟨hne, hw⟩ => by
      simpa [IRTerm.reparses, List.isEmpty_iff] using ⟨hne, hw⟩)
    (map_yields literalIdentifier_yields fun _ h => h)

theorem literal_yields (total : Nat) : Yields (fun l => l.reparses = true) (literal term total) :=
  fun i => map_yields (pair_yields literalIdentifier_yields
      (opt_yields (delimited_yields (separatedList1_yields term_yields))))
    (fun x ⟨hname, hargs⟩ => by
      obtain ⟨name, _ | args⟩ := x
      · simpa [Literal.reparses] using hname
      · simpa [Literal.reparses, List.all_eq_true, hname] using hargs args rfl) i

theorem clause_yields (total : Nat) : Yields (fun c => c.reparses = true) (clause term total) :=
  map_yields (separatedPair_yields (literal_yields total) (separatedList0_yields (literal_yields total)))
    fun _ ⟨hh, hb⟩ => by simpa [Clause.reparses, List.all_eq_true, hh] using hb

end Parser

/-- Every clause `FromStr for Clause` reads has identifiers for names and constants of
at least one character with no double quote. -/
theorem Clause.reparses_of_fromStr {s : String} {c : Clause} (h : Clause.fromStr s = .ok c) :
    c.reparses = true := by
  rcases hp : Parser.clause Parser.term s.length s.data with e | ⟨r, c'⟩ <;>
    rw [Clause.fromStr, hp] at h <;> cases h
  exact Parser.clause_yields _ _ _ _ hp

/-- **The IR parser reads only clauses of the round trip.** Whatever text
`FromStr for Clause` reads, the clause it returns prints, and reads back as itself when
positions are ignored. -/
theorem Clause.fromStr_display_fromStr {s : String} {c : Clause} (h : Clause.fromStr s = .ok c) :
    ∃ s', c.display = .ok s' ∧ ∃ c', Clause.fromStr ⟨s'⟩ = .ok c' ∧ c.eqIgnoringPosition c' :=
  Clause.fromStr_display (Clause.reparses_of_fromStr h)

theorem Clause.fromStr_display_fromStr_rule :
    ∃ c, Clause.fromStr "h :- l(\"a\",X)" = .ok c ∧ ∃ s', c.display = .ok s' ∧
      ∃ c', Clause.fromStr ⟨s'⟩ = .ok c' ∧ c.eqIgnoringPosition c' := by
  obtain ⟨c, h⟩ : ∃ c, Clause.fromStr "h :- l(\"a\",X)" = .ok c := ⟨_, by rfl⟩
  exact ⟨c, h, Clause.fromStr_display_fromStr h⟩

/-- A literal whose first argument is the empty constant reads back without its
arguments: `is_not` wants a character between the quotes, so no term parses after the
parenthesis, `opt` gives `None`, and the text from the parenthesis on is left
unread. -/
theorem Literal.fromStr_display_emptyConstant {l : Literal} {s : List Char}
    (hp : isIdentifier l.predicate.data = true) (ht : l.args.head? = some (.constant ""))
    (hs : l.display = .ok s) : Literal.fromStr ⟨s⟩ = .ok ⟨some ⟨0, 0⟩, l.predicate, []⟩ := by
  rcases Literal.display_eq_ok hs with ⟨hnil, -⟩ | ⟨t, ts, ss, hcons, hss, rfl⟩
  · rw [hnil] at ht; cases ht
  rw [hcons] at ht; cases ht
  obtain _ | @⟨_, st, _, sts, hst, -⟩ := mapM_forall₂ hss
  cases hst
  have hterm : Parser.term ('"' :: '"' :: joinedTail sts [')']) = .error .error := by
    have hcon : Parser.constant ('"' :: '"' :: joinedTail sts [')']) = .error .error :=
      delimited_error_mid (tag_append ['"'] _) (takeWhile1_error (by simp))
    rw [Parser.term, alt_error (map_error hcon _)]
    exact map_error (by rw [Parser.«variable», Parser.literalIdentifier_eq]; rfl) _
  have htext : l.predicate.data ++ '(' :: (displaySep ", ".data (('"' :: ("".data ++ ['"'])) :: sts) ++
      [')']) = l.predicate.data ++ '(' :: ('"' :: '"' :: joinedTail sts [')']) := by
    simp [displaySep, joinedTail]
  rw [htext]
  simp only [Literal.fromStr, Parser.literal, Parser.literalAt]
  rw [map_ok (pair_ok (Parser.literalIdentifier_append (r := '(' :: ('"' :: '"' :: joinedTail sts [')']))
    hp fun _ hc => by cases hc; rfl) (opt_error (delimited_error_mid (terminated_ok
      (tag_append ['('] _) (space0_of_startsUnblank fun _ hc => by cases hc; rfl))
      (by simp only [separatedList1, hterm]))))]
  simp [Except.map]

/-- The empty constant, which `convert_format_string` puts in every chain it builds,
does not survive the round trip: `l("")` reads back as `l`, and the clause
`h :- l("")` as `h :- l`. -/
theorem fromStr_display_empty_constant :
    Literal.display ⟨none, "l", [.constant ""]⟩ = .ok ['l', '(', '"', '"', ')'] ∧
      Literal.fromStr ⟨['l', '(', '"', '"', ')']⟩ = .ok ⟨some ⟨0, 0⟩, "l", []⟩ ∧
      Clause.display ⟨⟨none, "h", []⟩, [⟨none, "l", [.constant ""]⟩]⟩ =
        .ok ['h', ' ', ':', '-', ' ', 'l', '(', '"', '"', ')'] ∧
      Clause.fromStr ⟨['h', ' ', ':', '-', ' ', 'l', '(', '"', '"', ')']⟩ =
        .ok ⟨⟨some ⟨0, 0⟩, "h", []⟩, [⟨some ⟨5, 0⟩, "l", []⟩]⟩ :=
  ⟨rfl, Literal.fromStr_display_emptyConstant (l := ⟨none, "l", [.constant ""]⟩) rfl rfl rfl, rfl, rfl⟩

end Modus.Logic
