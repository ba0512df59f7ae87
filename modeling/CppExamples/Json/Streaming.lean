import CppExamples.Json.Prefixes

/-!
# A text and its continuations

What the outcome of `parse` on `s` says about `parse` on `s ++ t`. The parser looks at one byte at
a time and never back, so most of what happened on `s` happens on every continuation.

* Three exceptions may come from the end of the text alone: "Unexpected end of input"; that of a
  literal, where the text breaks off inside of this literal; and what `std::stod` throws, where the
  text ends inside of the number. `Late` says so, with what stands in front of the literal or the
  number: there a value is expected.
* A double with nothing behind it may go on. Every other value ends with its last byte.

`settledAt` carries both through the descent, with `Outcome.Settles` over the positions
`Cursor.Grown`, one lemma per function; `LateIn` is `Late` for what is left at a position. The
results:

* `parse_throw_append`: an exception that is not `Late` is thrown for every continuation.
* `parse_append_iff`: of the continuations of a document only those by white space are documents,
  with the same value.
-/

namespace CppExamples.Json

open Lib Lib.Cursor
open Lib.Outcome (Settles Unsettled throw_bind)

/-- The bytes of numbers and of `true`, `false` and `null`. -/
def tokenByte (c : UInt8) : Bool := isdigit c || (ascii "+-.eEtrufalsn").contains c

/-- `s` may end inside a number or a literal. -/
def endsInToken (s : Bytes) : Bool := s.getLast?.any tokenByte

theorem endsInToken_append {a u : Bytes} (hne : u ≠ []) (hu : ∀ c ∈ u, tokenByte c = true) :
    endsInToken (a ++ u) = true := by
  rw [endsInToken, List.getLast?_append_of_ne_nil a hne, List.getLast?_eq_getLast_of_ne_nil hne]
  exact hu _ (List.getLast_mem hne)

/-- A text that ends with token bytes from a position on. -/
theorem endsInToken_of_rest {p : JsonParser} (hne : p.rest ≠ [])
    (h : ∀ c ∈ p.rest, tokenByte c = true) : endsInToken p.text = true := by
  rw [← List.take_append_drop p.pos p.text]
  exact endsInToken_append hne h

/-- The literals of the grammar. -/
def literals : List Bytes := [ascii "true", ascii "false", ascii "null"]

/-- `u` breaks off inside of the literal `l`. -/
def CutOff (l u : Bytes) : Prop := l ∈ literals ∧ u ≠ [] ∧ u <+: l ∧ u ≠ l

/-- `u` is a number token that may go on: it ends in its exponent. -/
def OpenToken (u : Bytes) : Prop :=
  ∃ neg ds fr ex bf, Digits ds ∧ Fraction fr bf ∧ Exponent ex true ∧ 2 ≤ ex.length ∧
    u = signed neg ds ++ fr ++ ex

section Late

variable {D : Type} {stod : Bytes → Except ConvError D}

/-- The exceptions that the end of `r` may be the reason for, where `begins` are the texts that can
go on: a value may stand behind `a` if `a` can go on with `null`. -/
def LateIn (stod : Bytes → Except ConvError D) (begins : Bytes → Prop) (r : Bytes) :
    ParseError → Prop
  | .unexpectedEnd => True
  | .expectedLiteral l => ∃ a u, r = a ++ u ∧ CutOff l u ∧ begins (a ++ ascii "null")
  | .stod e => ∃ a u, r = a ++ u ∧ OpenToken u ∧ stod u = .error e ∧ begins (a ++ ascii "null")
  | _ => False

/-- The exceptions that the end of the text `s` may be the reason for. -/
def Late (stod : Bytes → Except ConvError D) (s : Bytes) (e : ParseError) : Prop :=
  LateIn stod (BeginsDocument stod) s e

variable {begins begins' : Bytes → Prop} {r r' : Bytes} {e : ParseError}

/-- What is late in a part of the text is late in the text. -/
theorem LateIn.append (h : LateIn stod begins' r' e)
    (himp : ∀ a, begins' a → begins (r ++ a)) : LateIn stod begins (r ++ r') e := by
  cases e with
  | expectedLiteral l =>
    obtain ⟨a, u, rfl, hcut, hbegins⟩ := h
    refine ⟨r ++ a, u, (List.append_assoc r a u).symm, hcut, ?_⟩
    rw [List.append_assoc]
    exact himp _ hbegins
  | stod e =>
    obtain ⟨a, u, rfl, hopen, hstod, hbegins⟩ := h
    refine ⟨r ++ a, u, (List.append_assoc r a u).symm, hopen, hstod, ?_⟩
    rw [List.append_assoc]
    exact himp _ hbegins
  | _ => exact h

end Late

/-- The same result, at the same position of the longer text. -/
def Follow {β : Type} (s t : Bytes) (a b : β × JsonParser) : Prop := b.1 = a.1 ∧ Grown s t a.2 b.2

section Scanner

variable {s t : Bytes} {p p' : JsonParser}

/-- `x` on the text `s` settles `y` on the text `s ++ t`. Only the end of the input is open. -/
abbrev SettlesOn {α : Type} (unsure : α → Prop) (R : α → α → Prop) (x y : Call α) : Prop :=
  Settles (fun e => e = .unexpectedEnd) unsure R x y

/-- Nothing is left open. -/
abbrev Sure {α : Type} : α → Prop := fun _ => False

/-- The byte consumed is the one looked at. -/
theorem reads_of_peek {c : UInt8} {r : UInt8 × JsonParser} (hpeek : peek p = .ret c)
    (h : consume p = .ret r) : Reads p [c] r.2 := by
  obtain ⟨l, hl⟩ := rest_of_peek hpeek
  have hr := reads_of_consume h
  rwa [(List.cons.inj (hl.symm.trans hr.rest)).1]

theorem peek_of_end (h : p.rest = []) : peek p = .throw .unexpectedEnd := by
  have hn : ¬ p.pos < p.text.length := fun hlt => by
    rw [p.rest_eq_cons hlt] at h
    exact absurd h (List.cons_ne_nil _ _)
  rw [peek, dif_neg hn]

theorem unsettled_of_end {α β : Type} {late : ParseError → Prop} {unsure : β → Prop} {x : Call α}
    {f : α → Call β} (hlate : late .unexpectedEnd) (h : x = .throw .unexpectedEnd) :
    Unsettled late unsure (x >>= f) := by
  rw [h]
  exact hlate

theorem settles_peek (h : Grown s t p p') : SettlesOn Sure Eq (peek p) (peek p') := by
  unfold peek
  split
  · rename_i hlt
    obtain ⟨hlt', hget, -⟩ := h.getElem hlt
    rw [dif_pos hlt', hget]
    exact .ret rfl
  · exact .of_late rfl

theorem settles_consume (h : Grown s t p p') :
    SettlesOn Sure (Follow s t) (consume p) (consume p') := by
  unfold consume
  split
  · rename_i hlt
    obtain ⟨hlt', hget, hnext⟩ := h.getElem hlt
    rw [dif_pos hlt', hget]
    exact .ret ⟨rfl, hnext⟩
  · exact .of_late rfl

/-- A loop that runs to the end of the text is followed by a look at the next byte. -/
theorem settles_skipWhile {α : Type} {late : ParseError → Prop} {unsure : α → Prop}
    {R : α → α → Prop} {test : UInt8 → Bool} {f g : UInt8 → Call α} (hlate : late .unexpectedEnd)
    (h : Grown s t p p')
    (hfg : ∀ c, Grown s t (p.skipWhile test) (p'.skipWhile test) →
      peek (p.skipWhile test) = .ret c → Settles late unsure R (f c) (g c)) :
    Settles late unsure R (peek (p.skipWhile test) >>= f) (peek (p'.skipWhile test) >>= g) := by
  by_cases hrest : (p.skipWhile test).rest = []
  · rw [peek_of_end hrest, throw_bind]
    exact .of_late hlate
  · have hq := h.skipWhile hrest
    have hpeeks : Settles late Sure Eq _ _ := (settles_peek hq).mono fun e he => he ▸ hlate
    refine hpeeks.bind (fun c c' hpeek hc => ?_) fun _ _ h => h.elim
    subst hc
    exact hfg c hq hpeek

theorem settles_expect (c : UInt8) (h : Grown s t p p') :
    SettlesOn Sure (Grown s t) (expect c p) (expect c p') := by
  refine settles_skipWhile rfl h fun got hq _ => ?_
  refine .ite ?_ ?_
  · exact (settles_consume hq).bind (fun a b _ hab => .ret hab.2) fun _ _ h => h.elim
  · rw [skipWhitespace, skipWhitespace, hq.pos]
    exact .throw _

/-- The loop of `parse_string` at a byte that is neither quote nor backslash. -/
theorem stringLoop_plain {b : Bytes} (h : p.pos < p.text.length) (hq : p.text[p.pos] ≠ ch '"')
    (hb : p.text[p.pos] ≠ ch '\\') :
    stringLoop p b = stringLoop (p.next h) (b ++ [p.text[p.pos]]) := by
  rw [stringLoop, dif_pos h, if_neg hq, if_neg hb]

/-- The loop of `parse_string` at an escape. -/
theorem stringLoop_escape {b : Bytes} (h : p.pos < p.text.length) (hb : p.text[p.pos] = ch '\\')
    (h' : (p.next h).pos < (p.next h).text.length) :
    stringLoop p b = (unescape (p.next h).text[(p.next h).pos]).elim (.throw .invalidEscape)
      fun c => stringLoop ((p.next h).next h') (b ++ [c]) := by
  rw [stringLoop, dif_pos h, if_neg (by rw [hb]; decide), if_pos hb, dif_pos h']
  cases unescape (p.next h).text[(p.next h).pos] <;> rfl

theorem settles_stringLoop {b : Bytes} (h : Grown s t p p') :
    SettlesOn Sure (Follow s t) (stringLoop p b) (stringLoop p' b) := by
  fun_induction stringLoop p b generalizing p' with
  | case1 p b hlt hquote =>
    obtain ⟨hlt', hget, -⟩ := h.getElem hlt
    rw [stringLoop, dif_pos hlt', if_pos (hget.trans hquote)]
    exact .ret ⟨rfl, h⟩
  | case2 p b hlt hquote hback hlt2 c hc ih =>
    obtain ⟨hlt', hget, hnext⟩ := h.getElem hlt
    obtain ⟨hlt2', hget2, hnext2⟩ := hnext.getElem hlt2
    rw [stringLoop_escape hlt' (hget.trans hback) hlt2', hget2, hc]
    exact ih hnext2
  | case3 p b hlt hquote hback hlt2 hc =>
    obtain ⟨hlt', hget, hnext⟩ := h.getElem hlt
    obtain ⟨hlt2', hget2, -⟩ := hnext.getElem hlt2
    rw [stringLoop_escape hlt' (hget.trans hback) hlt2', hget2, hc]
    exact .throw _
  | case4 p b hlt hquote hback hlt2 => exact .of_late rfl
  | case5 p b hlt hquote hback ih =>
    obtain ⟨hlt', hget, hnext⟩ := h.getElem hlt
    rw [stringLoop_plain hlt' (hget ▸ hquote) (hget ▸ hback), hget]
    exact ih hnext
  | case6 p b hlt => exact .of_late rfl

theorem settles_parseString (h : Grown s t p p') :
    SettlesOn Sure (Follow s t) (parseString p) (parseString p') := by
  refine (settles_expect _ h).bind (fun p₁ p₁' _ h1 => ?_) fun _ _ h => h.elim
  refine (settles_stringLoop h1).bind (fun r r' _ h2 => ?_) fun _ _ h => h.elim
  refine (settles_expect _ h2.2).bind (fun p₃ p₃' _ h3 => ?_) fun _ _ h => h.elim
  exact .ret ⟨h2.1, h3⟩

theorem settles_optional (test : UInt8 → Bool) (h : Grown s t p p') :
    SettlesOn Sure (Follow s t) (optional test p) (optional test p') := by
  refine (settles_peek h).bind (fun c _ _ hc => ?_) fun _ _ h => h.elim
  subst hc
  refine .ite ?_ (.ret ⟨rfl, h⟩)
  exact (settles_consume h).bind (fun a b _ hab => .ret ⟨rfl, hab.2⟩) fun _ _ h => h.elim

theorem optional_of_end {test : UInt8 → Bool} (h : p.rest = []) :
    optional test p = .throw .unexpectedEnd := by
  rw [optional, peek_of_end h, throw_bind]

/-! ### Numbers -/

theorem parseFraction_of_end (h : p.rest = []) : parseFraction p = .throw .unexpectedEnd := by
  rw [parseFraction, optional_of_end h, throw_bind]

theorem parseExponent_of_end (h : p.rest = []) : parseExponent p = .throw .unexpectedEnd := by
  rw [parseExponent, optional_of_end h, throw_bind]

theorem settles_parseFraction (h : Grown s t p p') :
    SettlesOn (fun r => r.2.rest = []) (Follow s t) (parseFraction p) (parseFraction p') := by
  refine (settles_optional _ h).bind (fun ⟨b, q⟩ ⟨b', q'⟩ _ hb => ?_) fun _ _ h => h.elim
  obtain ⟨rfl, hq⟩ := hb
  cases b' with
  | false => exact .ret ⟨rfl, hq⟩
  | true =>
    by_cases hrest : (q.skipWhile isdigit).rest = []
    · exact .inl hrest
    · exact .ret ⟨rfl, hq.skipWhile hrest⟩

theorem settles_parseExponent (h : Grown s t p p') :
    SettlesOn (fun r => r.1 = true ∧ r.2.rest = []) (Follow s t) (parseExponent p)
      (parseExponent p') := by
  refine (settles_optional _ h).bind (fun ⟨b, q⟩ ⟨b', q'⟩ _ hb => ?_) fun _ _ h => h.elim
  obtain ⟨rfl, hq⟩ := hb
  cases b' with
  | false => exact .ret ⟨rfl, hq⟩
  | true =>
    refine (settles_optional _ hq).bind (fun r r' _ hr => ?_) fun _ _ h => h.elim
    by_cases hrest : (r.2.skipWhile isdigit).rest = []
    · exact .inl ⟨rfl, hrest⟩
    · exact .ret ⟨rfl, hr.2.skipWhile hrest⟩

theorem settles_scanNumber (h : Grown s t p p') :
    SettlesOn (fun r => r.1 = true ∧ r.2.rest = []) (Follow s t) (scanNumber p)
      (scanNumber p') := by
  refine (settles_optional _ h).bind (fun r r' _ hr => ?_) fun _ _ h => h.elim
  by_cases hrest : (r.2.skipWhile isdigit).rest = []
  · exact .inl (unsettled_of_end rfl (parseFraction_of_end hrest))
  · refine (settles_parseFraction (hr.2.skipWhile hrest)).bind (fun f f' _ hf => ?_)
      fun f _ hf => ?_
    · refine (settles_parseExponent hf.2).bind (fun e e' _ he => ?_) fun e _ he => ?_
      · exact .ret ⟨by rw [hf.1, he.1], he.2⟩
      · exact ⟨by rw [he.1, Bool.or_true], he.2⟩
    · exact unsettled_of_end rfl (parseExponent_of_end hf)

theorem tokenByte_digits {ds : Bytes} (hd : Digits ds) : ∀ c ∈ ds, tokenByte c = true := by
  intro c hc
  rw [tokenByte, digits_iff.mp hd c hc, Bool.true_or]

theorem tokenByte_fraction {fr : Bytes} {b : Bool} (hf : Fraction fr b) :
    ∀ c ∈ fr, tokenByte c = true := by
  cases hf with
  | none => exact fun c hc => absurd hc List.not_mem_nil
  | some h => exact List.forall_mem_cons.mpr ⟨rfl, tokenByte_digits h⟩

theorem tokenByte_exponent {ex : Bytes} {b : Bool} (he : Exponent ex b) :
    ∀ c ∈ ex, tokenByte c = true := by
  cases he with
  | none => exact fun c hc => absurd hc List.not_mem_nil
  | some h hs hd =>
    refine List.forall_mem_append.mpr ⟨List.forall_mem_cons.mpr ⟨?_, ?_⟩, tokenByte_digits hd⟩
    · rcases h with rfl | rfl <;> rfl
    · rcases hs with rfl | rfl | rfl
      · exact fun c hc => absurd hc List.not_mem_nil
      · exact List.forall_mem_singleton.mpr rfl
      · exact List.forall_mem_singleton.mpr rfl

/-- The bytes of a number token. -/
theorem tokenByte_token {neg : Bool} {ds fr ex : Bytes} {bf be : Bool} (hd : Digits ds)
    (hf : Fraction fr bf) (he : Exponent ex be) :
    ∀ c ∈ signed neg ds ++ fr ++ ex, tokenByte c = true := by
  have hsigned : ∀ c ∈ signed neg ds, tokenByte c = true := by
    cases neg with
    | false => exact tokenByte_digits hd
    | true => exact List.forall_mem_cons.mpr ⟨rfl, tokenByte_digits hd⟩
  exact List.forall_mem_append.mpr
    ⟨List.forall_mem_append.mpr ⟨hsigned, tokenByte_fraction hf⟩, tokenByte_exponent he⟩

/-- A double scanned to the end of the text. -/
theorem openToken_of_scanNumber {b : Bool} {q : JsonParser} (h : scanNumber p = .ret (b, q))
    (hq : q.rest = []) : OpenToken p.rest ∧ substr p q = p.rest := by
  obtain ⟨neg, ds, fr, ex, bf, be, hd, hf, he, -, hr, hend⟩ := scanNumber_sound h
  have hrest : p.rest = signed neg ds ++ fr ++ ex := by rw [hr.rest, hq, List.append_nil]
  refine ⟨?_, by rw [substr_of_reads hr, hrest]⟩
  cases he with
  | none => exact absurd (hend hq) (by simp)
  | some hE hs hd' => exact ⟨neg, ds, fr, _, bf, hd, hf, .some hE hs hd', hend hq, hrest⟩

theorem OpenToken.tokenByte {u : Bytes} (h : OpenToken u) :
    u ≠ [] ∧ ∀ c ∈ u, tokenByte c = true := by
  obtain ⟨neg, ds, fr, ex, bf, hd, hf, he, hlen, rfl⟩ := h
  refine ⟨List.append_ne_nil_of_right_ne_nil _ ?_, tokenByte_token hd hf he⟩
  rintro rfl
  exact absurd hlen (by simp)

theorem CutOff.tokenByte {l u : Bytes} (h : CutOff l u) : u ≠ [] ∧ ∀ c ∈ u, tokenByte c = true := by
  obtain ⟨hl, hne, hpre, -⟩ := h
  have hall : literals.all (fun l => l.all Json.tokenByte) = true := rfl
  exact ⟨hne, fun c hc => List.all_eq_true.mp (List.all_eq_true.mp hall l hl) c (hpre.subset hc)⟩

variable {D : Type} {stod : Bytes → Except ConvError D}

/-- The token is the same in both texts. -/
theorem substr_grown {q q' : JsonParser} (h : Grown s t p p') (hq : Grown s t q q') :
    substr p' q' = substr p q := by
  have hle := q.pos_le
  have hlen := p.rest_length
  rw [hq.text, ← h.text] at hle
  rw [substr, substr, h.rest, hq.pos, h.pos, List.take_append_of_le_length (by omega)]

/-- A double with nothing behind it. -/
def OpenDouble (r : JsonValue D × JsonParser) : Prop := r.2.rest = [] ∧ ∃ d, r.1 = .double d

/-- The end of the text may be late for what is read from `r` on. -/
abbrev SettlesIn {α : Type} (stod : Bytes → Except ConvError D) (begins : Bytes → Prop) (r : Bytes)
    (unsure : α → Prop) (R : α → α → Prop) (x y : Call α) : Prop :=
  Settles (LateIn stod begins r) unsure R x y

section Contexts

variable {α : Type} {begins begins' : Bytes → Prop} {r : Bytes} {unsure : α → Prop}
  {R : α → α → Prop} {x y : Call α} {q : JsonParser}

theorem settlesIn_of_on (h : SettlesOn unsure R x y) : SettlesIn stod begins r unsure R x y :=
  h.mono fun _ he => he ▸ trivial

/-- A part of the text, behind `r`. -/
theorem settlesIn_of_reads (h : SettlesIn stod begins' q.rest unsure R x y) (hr : Reads p r q)
    (himp : ∀ a, begins' a → begins (r ++ a)) : SettlesIn stod begins p.rest unsure R x y :=
  h.mono fun _ he => hr.rest ▸ he.append himp

end Contexts

/-- Nothing stands in front of the literal or the number. -/
abbrev AtOnce (r : Bytes) : Prop := r = ascii "null"

theorem settles_parseNumber (h : Grown s t p p') :
    SettlesIn stod AtOnce p.rest OpenDouble (Follow s t) (parseNumber stod p)
      (parseNumber stod p') := by
  refine (settlesIn_of_on (settles_scanNumber h)).bind (fun ⟨b, q⟩ ⟨b', q'⟩ _ hr => ?_)
    fun ⟨b, q⟩ hscan hopen => ?_
  · obtain ⟨rfl, hq⟩ := hr
    have hconvert : SettlesIn stod AtOnce p.rest Sure Eq (convert stod b' (substr p q))
        (convert stod b' (substr p' q')) := by
      rw [substr_grown h hq]
      exact .refl _
    refine hconvert.bind (fun v v' _ hv => ?_) fun _ _ h => h.elim
    exact .ret ⟨hv.symm, hq⟩
  · obtain ⟨rfl, hq⟩ := hopen
    obtain ⟨htoken, hsubstr⟩ := openToken_of_scanNumber hscan hq
    dsimp only [convert]
    rw [if_pos rfl, hsubstr]
    cases hstod : stod p.rest with
    | ok d => exact ⟨hq, d, rfl⟩
    | error e => exact ⟨[], p.rest, rfl, htoken, hstod, rfl⟩

/-! ### Literals -/

theorem settles_literalLoop {literal l : Bytes} (h : Grown s t p p') :
    Settles (fun e => e = .expectedLiteral literal ∧ p.rest <+: l ∧ p.rest ≠ l) Sure (Grown s t)
      (literalLoop literal l p) (literalLoop literal l p') := by
  induction l generalizing p p' with
  | nil => exact .ret h
  | cons c l ih =>
    by_cases hlt : p.pos < p.text.length
    · obtain ⟨hlt', hget, hnext⟩ := h.getElem hlt
      rw [literalLoop, literalLoop, dif_pos hlt, dif_pos hlt', hget]
      by_cases heq : p.text[p.pos] = c
      · rw [if_pos heq, if_pos heq]
        refine (ih hnext).mono fun e h => ⟨h.1, ?_⟩
        obtain ⟨-, hpre, hne⟩ := h
        rw [p.rest_eq_cons hlt, heq]
        exact ⟨List.cons_prefix_cons.mpr ⟨rfl, hpre⟩, fun h => hne (List.cons.inj h).2⟩
      · rw [if_neg heq, if_neg heq]
        exact .throw _
    · rw [literalLoop, dif_neg hlt]
      refine .of_late ⟨rfl, ?_⟩
      rw [p.rest_eq_nil hlt]
      exact ⟨List.nil_prefix, (List.cons_ne_nil c l).symm⟩

theorem settles_parseLiteral {literal : Bytes} (hl : literal ∈ literals) (value : JsonValue D)
    (h : Grown s t p p') (hne : p.rest ≠ []) :
    SettlesIn stod AtOnce p.rest Sure (Follow s t) (parseLiteral literal value p)
      (parseLiteral literal value p') := by
  have hloop : SettlesIn stod AtOnce p.rest Sure (Grown s t) (literalLoop literal literal p)
      (literalLoop literal literal p') :=
    (settles_literalLoop h).mono fun e he => he.1 ▸ ⟨[], p.rest, rfl, ⟨hl, hne, he.2⟩, rfl⟩
  exact hloop.bind (fun _ _ _ hq => .ret ⟨rfl, hq⟩) fun _ _ h => h.elim

/-- But for "Unexpected end of input", what is late comes from a token at the end of the text. -/
theorem LateIn.endsInToken {begins : Bytes → Prop} {e : ParseError} (h : LateIn stod begins s e)
    (he : e ≠ .unexpectedEnd) : endsInToken s = true := by
  cases e with
  | unexpectedEnd => exact absurd rfl he
  | expectedLiteral l =>
    obtain ⟨a, u, rfl, hcut, -⟩ := h
    exact endsInToken_append hcut.tokenByte.1 hcut.tokenByte.2
  | stod e =>
    obtain ⟨a, u, rfl, hopen, -⟩ := h
    exact endsInToken_append hopen.tokenByte.1 hopen.tokenByte.2
  | _ => exact absurd h id

end Scanner

/-! ## The descent -/

section Descent

variable {D : Type} {stod : Bytes → Except ConvError D} {s t : Bytes}

/-- The recursive descent with `n` units of fuel on `s` settles the one on `s ++ t`. -/
structure SettledAt (stod : Bytes → Except ConvError D) (s t : Bytes) (n : Nat) : Prop where
  value : ∀ {p p'}, Grown s t p p' → SettlesIn stod (BeginsValue stod) p.rest OpenDouble
    (Follow s t) (parseValueN stod n p) (parseValueN stod n p')
  array : ∀ {p p'}, Grown s t p p' → SettlesIn stod (BeginsValue stod) p.rest Sure
    (Follow s t) (parseArrayN stod n p) (parseArrayN stod n p')
  items : ∀ {p p'} arr, Grown s t p p' → SettlesIn stod (BeginsItems stod) p.rest Sure
    (Follow s t) (arrayLoopN stod n p arr) (arrayLoopN stod n p' arr)
  object : ∀ {p p'}, Grown s t p p' → SettlesIn stod (BeginsValue stod) p.rest Sure
    (Follow s t) (parseObjectN stod n p) (parseObjectN stod n p')
  members : ∀ {p p'} obj, Grown s t p p' → SettlesIn stod (BeginsMembers stod) p.rest Sure
    (Follow s t) (objectLoopN stod n p obj) (objectLoopN stod n p' obj)

variable {n : Nat} {p p' : JsonParser}

theorem settled_value (ih : SettledAt stod s t n) (h : Grown s t p p') :
    SettlesIn stod (BeginsValue stod) p.rest OpenDouble (Follow s t) (parseValueN stod (n + 1) p)
      (parseValueN stod (n + 1) p') := by
  obtain ⟨w, hw, hread, -⟩ := exists_skipWhitespace p
  have hnull : ∀ a, AtOnce a → BeginsValue stod (w ++ a) := fun a ha => ha ▸ .null hw
  have hsure : ∀ {x y : Call (JsonValue D × JsonParser)},
      SettlesIn stod (BeginsValue stod) p.rest Sure (Follow s t) x y →
      SettlesIn stod (BeginsValue stod) p.rest OpenDouble (Follow s t) x y :=
    fun h => h.weaken fun _ h => h.elim
  refine settles_skipWhile trivial h fun c hq hpeek => ?_
  have hne : (skipWhitespace p).rest ≠ [] := by
    obtain ⟨l, hl⟩ := rest_of_peek hpeek
    exact hl ▸ List.cons_ne_nil c l
  refine .ite ?_ (.ite ?_ (.ite ?_ (.ite ?_ (.ite ?_ (.ite ?_ (.ite ?_ ?_))))))
  · exact (settlesIn_of_on (settles_parseString hq)).bind
      (fun r r' _ hr => .ret ⟨by rw [hr.1], hr.2⟩) fun _ _ h => h.elim
  · exact settlesIn_of_reads (settles_parseNumber hq) hread hnull
  · exact hsure (settlesIn_of_reads (ih.array hq) hread fun a => .ws_append hw)
  · exact hsure (settlesIn_of_reads (ih.object hq) hread fun a => .ws_append hw)
  · exact hsure (settlesIn_of_reads (settles_parseLiteral (by decide) _ hq hne) hread hnull)
  · exact hsure (settlesIn_of_reads (settles_parseLiteral (by decide) _ hq hne) hread hnull)
  · exact hsure (settlesIn_of_reads (settles_parseLiteral (by decide) _ hq hne) hread hnull)
  · rw [skipWhitespace, skipWhitespace, hq.pos]
    exact .throw _

theorem settles_brackets {β : Type} {a b : UInt8} {loop : JsonParser → Call (β × JsonParser)}
    {empty : β} {wrap : β → JsonValue D} {begins : Bytes → Prop}
    (hloop : ∀ {q q'}, Grown s t q q' →
      SettlesIn stod begins q.rest Sure (Follow s t) (loop q) (loop q'))
    (hbegins : ∀ w w₁ r, Ws w → Ws w₁ → begins r → BeginsValue stod (w ++ [a] ++ w₁ ++ r))
    (h : Grown s t p p') :
    SettlesIn stod (BeginsValue stod) p.rest Sure (Follow s t) (brackets a b loop empty wrap p)
      (brackets a b loop empty wrap p') := by
  refine (settlesIn_of_on (settles_expect a h)).bind (fun p₁ p₁' hret h1 => ?_) fun _ _ h => h.elim
  obtain ⟨w, hw, hr1⟩ := expect_sound hret
  obtain ⟨w₁, hw₁, hr2, -⟩ := exists_skipWhitespace p₁
  refine settles_skipWhile trivial h1 fun c hq _ => ?_
  have hitems := settlesIn_of_reads (hloop hq) (hr1.trans hr2) fun r => hbegins w w₁ r hw hw₁
  refine Settles.bind (.ite hitems (.ret ⟨rfl, hq⟩)) (fun r r' _ hr => ?_) fun _ _ h => h.elim
  refine (settlesIn_of_on (settles_expect b hr.2)).bind (fun p₂ p₂' _ h2 => ?_) fun _ _ h => h.elim
  exact .ret ⟨by rw [hr.1], h2⟩

/-- After a value that is open there is no byte to look at. -/
theorem unsettled_of_openDouble {α : Type} {late : ParseError → Prop} {unsure : α → Prop}
    {f : UInt8 → Call α} {r : JsonValue D × JsonParser} (hlate : late .unexpectedEnd)
    (h : OpenDouble r) : Unsettled late unsure (peek (skipWhitespace r.2) >>= f) := by
  refine unsettled_of_end hlate (peek_of_end ?_)
  rw [skipWhitespace, skipWhile_rest, h.1, List.dropWhile_nil]

theorem settled_items (ih : SettledAt stod s t n) (arr : List (JsonValue D)) (h : Grown s t p p') :
    SettlesIn stod (BeginsItems stod) p.rest Sure (Follow s t) (arrayLoopN stod (n + 1) p arr)
      (arrayLoopN stod (n + 1) p' arr) := by
  have hvalue : SettlesIn stod (BeginsItems stod) p.rest OpenDouble (Follow s t) _ _ :=
    settlesIn_of_reads (ih.value h) (Reads.refl p) fun a ha => ha.items
  refine hvalue.bind (fun ⟨v, q⟩ ⟨v', q'⟩ hret hr => ?_)
    fun r _ hr => unsettled_of_openDouble trivial hr
  obtain ⟨w, u, hw, hu, hr1⟩ := (soundAt n).value hret
  obtain ⟨w', hw', hr2, -⟩ := exists_skipWhitespace q
  obtain ⟨rfl, hq⟩ := hr
  refine settles_skipWhile trivial hq fun c hq hpeek => ?_
  split
  · rename_i hc
    subst hc
    refine (settlesIn_of_on (settles_consume hq)).bind (fun r r' hcons h3 => ?_) fun _ _ h => h.elim
    have hread := (hr1.trans hr2).trans (reads_of_peek hpeek hcons)
    exact settlesIn_of_reads (ih.items _ h3.2) hread fun a => .cons hw hu hw'
  · exact .ite (.ret ⟨rfl, hq⟩) (.throw _)

theorem settled_members (ih : SettledAt stod s t n) (obj : List (Bytes × JsonValue D))
    (h : Grown s t p p') : SettlesIn stod (BeginsMembers stod) p.rest Sure (Follow s t)
      (objectLoopN stod (n + 1) p obj) (objectLoopN stod (n + 1) p' obj) := by
  refine (settlesIn_of_on (settles_parseString h)).bind (fun ⟨k, p₁⟩ ⟨k', p₁'⟩ hkey h1 => ?_)
    fun _ _ h => h.elim
  obtain ⟨w, lit, hw, hlit, hr1⟩ := parseString_sound hkey
  obtain ⟨rfl, h1⟩ := h1
  refine (settlesIn_of_on (settles_expect _ h1)).bind (fun p₂ p₂' hcolon h2 => ?_)
    fun _ _ h => h.elim
  obtain ⟨w₁, hw₁, hr2⟩ := expect_sound hcolon
  have hread := hr1.trans hr2
  have hvalue : SettlesIn stod (BeginsMembers stod) p.rest OpenDouble (Follow s t) _ _ :=
    settlesIn_of_reads (ih.value h2) hread fun a ha => by simpa using ha.member hw hlit hw₁
  refine hvalue.bind (fun ⟨v, q⟩ ⟨v', q'⟩ hret hr => ?_)
    fun r _ hr => unsettled_of_openDouble trivial hr
  obtain ⟨w₂, u, hw₂, hu, hr3⟩ := (soundAt n).value hret
  obtain ⟨w', hw', hr4, -⟩ := exists_skipWhitespace q
  obtain ⟨rfl, hq⟩ := hr
  refine settles_skipWhile trivial hq fun c hq hpeek => ?_
  split
  · rename_i hc
    subst hc
    refine (settlesIn_of_on (settles_consume hq)).bind (fun r r' hcons h3 => ?_) fun _ _ h => h.elim
    have hall := ((hread.trans hr3).trans hr4).trans (reads_of_peek hpeek hcons)
    refine settlesIn_of_reads (ih.members _ h3.2) hall fun a ha => ?_
    simpa using ha.cons hw hlit hw₁ hw₂ hu hw'
  · exact .ite (.ret ⟨rfl, hq⟩) (.throw _)

/-- **The descent settles every continuation**, whatever the fuel. -/
theorem settledAt : ∀ n, SettledAt stod s t n
  | 0 => ⟨fun _ => .of_timeout, fun _ => .of_timeout, fun _ _ => .of_timeout, fun _ => .of_timeout,
      fun _ _ => .of_timeout⟩
  | n + 1 => by
    have ih := settledAt n
    refine ⟨settled_value ih, fun h => ?_, settled_items ih, fun h => ?_, settled_members ih⟩
    · rw [parseArrayN_eq, parseArrayN_eq]
      exact settles_brackets (ih.items []) (fun w w₁ r hw hw₁ hr => hr.array hw hw₁) h
    · rw [parseObjectN_eq, parseObjectN_eq]
      exact settles_brackets (ih.members []) (fun w w₁ r hw hw₁ hr => hr.object hw hw₁) h

/-- `parse_value` on `s` settles `parse_value` on `s ++ t`. -/
theorem settles_parseValue (stod : Bytes → Except ConvError D) (s t : Bytes) :
    SettlesIn stod (BeginsValue stod) s OpenDouble (Follow s t) (parseValue stod (Cursor.start s))
      (parseValue stod (Cursor.start (s ++ t))) := by
  have hfuel : fuel (Cursor.start s) ≤ fuel (Cursor.start (s ++ t)) := by
    rw [fuel, fuel, start_rest, start_rest, List.length_append]
    omega
  rw [← parseValueN_eq hfuel]
  exact (settledAt _).value (Grown.start s t)

end Descent

/-! ## Documents and their continuations -/

section Parse

variable {D : Type} {stod : Bytes → Except ConvError D}

/-- `parse` behind the value: white space to the end, or an exception where it ends. -/
theorem parse_of_value {s : Bytes} {v : JsonValue D} {q : JsonParser}
    (h : parseValue stod (Cursor.start s) = .ret (v, q)) :
    parse stod s = if (skipWhitespace q).rest = [] then .ret v
      else .throw (.extraCharacters (skipWhitespace q).pos) := by
  have hpos : (skipWhitespace q).pos = (skipWhitespace q).text.length ↔
      (skipWhitespace q).rest = [] := by
    have hlen := (skipWhitespace q).rest_length
    have hle := (skipWhitespace q).pos_le
    rw [← List.length_eq_zero_iff]
    omega
  rw [parse, h]
  simp only [Outcome.ret_bind, ne_eq, hpos, ite_not, Outcome.pure_eq]

/-- What is not late in the value at the start of the text is settled. -/
theorem throw_append {s : Bytes} {e : ParseError} (h : parse stod s = .throw e)
    (hne : ¬ LateIn stod (BeginsValue stod) s e) (t : Bytes) : parse stod (s ++ t) = .throw e := by
  have hsettles := settles_parseValue stod s t
  cases hv : parseValue stod (Cursor.start s) with
  | timeout => exact absurd hv (parseValue_ne_timeout _)
  | throw e' =>
    rw [parse, hv] at h
    obtain rfl := Outcome.throw.inj h
    rw [hv] at hsettles
    rw [parse, hsettles.eq_throw hne, throw_bind]
  | ret r =>
    obtain ⟨v, q⟩ := r
    rw [parse_of_value hv] at h
    split at h
    · exact absurd h (by simp)
    · rename_i hrest
      obtain rfl := Outcome.throw.inj h
      -- something that is no white space is behind the value, so the value is not open
      have hsure : ¬ OpenDouble (v, q) := fun hopen => hrest <| by
        rw [skipWhitespace, skipWhile_rest, hopen.1, List.dropWhile_nil]
      rw [hv] at hsettles
      obtain ⟨⟨v', q'⟩, hv', -, hq⟩ := hsettles.exists_ret hsure
      have hskip : Grown s t (skipWhitespace q) (skipWhitespace q') := hq.skipWhile hrest
      have hrest' : (skipWhitespace q').rest ≠ [] := by
        rw [hskip.rest]
        exact List.append_ne_nil_of_left_ne_nil hrest t
      rw [parse_of_value hv', if_neg hrest', hskip.pos]

/-- The value stands in a document. -/
theorem LateIn.document {s : Bytes} {e : ParseError} (h : LateIn stod (BeginsValue stod) s e) :
    Late stod s e :=
  h.append (r := []) fun _ ha => ha.document

/-- **An exception that is not from the end of the text is final**: every continuation of the text
throws it, too, at the same position. -/
theorem parse_throw_append {s : Bytes} {e : ParseError} (h : parse stod s = .throw e)
    (he : ¬ Late stod s e) (t : Bytes) : parse stod (s ++ t) = .throw e :=
  throw_append h (mt LateIn.document he) t

/-- The mismatch is at the second byte. -/
theorem parse_nope (stod : Bytes → Except ConvError D) :
    parse stod (ascii "nope, 1") = .throw (.expectedLiteral (ascii "null")) := by
  have hskip : skipWhitespace (Cursor.start (ascii "nope, 1")) = Cursor.start (ascii "nope, 1") :=
    skipWhitespace_eq Ws.nil (Reads.refl _) (Stops.cons rfl)
  rw [parse, parseValue, fuel, parseValueN, hskip, peek_of_rest rfl]
  rfl

/-- The literal does not break off at the end: the last byte is none of a literal. -/
theorem not_late_nope (stod : Bytes → Except ConvError D) :
    ¬ Late stod (ascii "nope, 1") (.expectedLiteral (ascii "null")) := by
  rintro ⟨a, u, hs, ⟨-, hne, hpre, -⟩, -⟩
  have hlast : u.getLast? = some (ch '1') := by
    rw [← List.getLast?_append_of_ne_nil a hne, ← hs]
    rfl
  exact absurd (hpre.subset (List.mem_of_getLast? hlast)) (by decide)

/-- `nope, 1`, and `nope, 1` with more behind it. -/
theorem parse_throw_append_nope :
    parse (fun _ => .error .invalidArgument : Bytes → Except ConvError Unit)
      (ascii "nope, 1" ++ ascii "2") = .throw (.expectedLiteral (ascii "null")) :=
  parse_throw_append (parse_nope _) (not_late_nope _) _

/-- A double at the end of its text ends in a byte of a token. -/
theorem endsInToken_of_openDouble {s : Bytes} {v : JsonValue D} {q : JsonParser}
    (h : parseValue stod (Cursor.start s) = .ret (v, q)) (hopen : OpenDouble (v, q)) :
    endsInToken s = true := by
  obtain ⟨w, u, -, hu, hr⟩ := (soundAt _).value h
  obtain ⟨hq, d, rfl⟩ := hopen
  have hs : s = w ++ u := by simpa [hq] using hr.rest
  cases hu with
  | number hu =>
    cases hu with
    | double hd hstart hf he hpart hc =>
      rw [hs]
      exact endsInToken_append (Number.double hd hstart hf he hpart hc).head.ne_nil
        (tokenByte_token hd hf he)

/-- **No document is a proper beginning of another one**, but for white space behind it and for a
double that goes on. -/
theorem parse_append_iff {s : Bytes} {v : JsonValue D} (h : parse stod s = .ret v)
    (hv : (∀ d, v ≠ .double d) ∨ endsInToken s = false) (t : Bytes) (v' : JsonValue D) :
    parse stod (s ++ t) = .ret v' ↔ v' = v ∧ Ws t := by
  obtain ⟨q, hvalue, hq⟩ := parse_eq_ret_iff.mp h
  have hsure : ¬ OpenDouble (v, q) := by
    intro hopen
    rcases hv with hv | hv
    · obtain ⟨d, hd⟩ := hopen.2
      exact hv d hd
    · rw [endsInToken_of_openDouble hvalue hopen] at hv
      exact absurd hv (by simp)
  have hsettles := settles_parseValue stod s t
  rw [hvalue] at hsettles
  obtain ⟨⟨v₁, q'⟩, hvalue', hv₁, hgrown⟩ := hsettles.exists_ret hsure
  obtain rfl : v₁ = v := hv₁
  rw [parse_eq_ret_iff]
  constructor
  · rintro ⟨q'', hv'', hws⟩
    obtain ⟨rfl, rfl⟩ := Prod.mk.inj (Outcome.ret.inj (hvalue'.symm.trans hv''))
    refine ⟨rfl, fun c hc => hws c ?_⟩
    rw [hgrown.rest]
    exact List.mem_append_right _ hc
  · rintro ⟨rfl, hws⟩
    exact ⟨q', hvalue', by rw [hgrown.rest]; exact hq.append hws⟩

/-- `null`, and what stands behind it. -/
theorem parse_append_iff_null :
    parse (fun _ => .error .invalidArgument : Bytes → Except ConvError Unit)
        (ascii "null" ++ [0x20]) = .ret .null ↔
      (JsonValue.null : JsonValue Unit) = .null ∧ Ws [0x20] :=
  parse_append_iff
    (parse_iff.mpr ⟨[], ascii "null", [], Ws.nil, .litNull, Ws.nil, rfl, fun _ => rfl⟩)
    (.inl fun _ h => by cases h) _ _

end Parse

end CppExamples.Json
