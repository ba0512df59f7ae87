import CppExamples.Json.Numbers
import Mathlib.Computability.DFA

/-!
# The tokens of JSON and the tokens of the parser

`Rfc.Text` is the grammar of RFC 8259 over bytes. The parser's own language (`Json.Text`) has the
same brackets and separators, and it is larger in its tokens: `isspace` takes `0x0B` and `0x0C` for
white space, the loop of `parse_string` takes any byte but the quote and the backslash, and the
digit loops of `parse_number` take no digit at all, or a zero and then more digits.

`strictLexer` is a finite automaton that only looks at these three things. It knows whether it is
in a string or in a number, and it does not match brackets. Each kind of token has two lemmas: what
the automaton does on one of JSON (`run_…`), and that one of the parser is JSON, or the automaton
refuses it or is stuck behind it (`split_…`).
-/

namespace CppExamples.Json

open Lib Lib.Cursor

/-! ## The grammar of RFC 8259 -/

namespace Rfc

/-- `ws`: blank, tab, line feed, carriage return. -/
def Ws (w : Bytes) : Prop := ∀ c ∈ w, c = 0x20 ∨ c = 0x09 ∨ c = 0x0A ∨ c = 0x0D

/-- `HEXDIG`. -/
def Hex (c : UInt8) : Prop :=
  (0x30 ≤ c ∧ c ≤ 0x39) ∨ (0x41 ≤ c ∧ c ≤ 0x46) ∨ (0x61 ≤ c ∧ c ≤ 0x66)

/-- `*char`. A byte of a character outside ASCII is `unescaped`. -/
inductive Chars : Bytes → Prop
  | nil : Chars []
  | unescaped {c : UInt8} {u : Bytes} (hc : 0x20 ≤ c) (hq : c ≠ ch '"') (hb : c ≠ ch '\\')
      (h : Chars u) : Chars (c :: u)
  | escape {e c : UInt8} {u : Bytes} (he : Escape e c) (h : Chars u) : Chars (ch '\\' :: e :: u)
  | unicode {a b c d : UInt8} {u : Bytes} (ha : Hex a) (hb : Hex b) (hc : Hex c) (hd : Hex d)
      (h : Chars u) : Chars (ch '\\' :: ch 'u' :: a :: b :: c :: d :: u)

/-- `string`. -/
def String (u : Bytes) : Prop := ∃ b, Chars b ∧ u = ch '"' :: b ++ [ch '"']

/-- `int = zero / ( digit1-9 *DIGIT )`. -/
inductive Int : Bytes → Prop
  | zero : Int [ch '0']
  | digits {c : UInt8} {ds : Bytes} (hc : 0x31 ≤ c ∧ c ≤ 0x39) (hd : Digits ds) : Int (c :: ds)

/-- `[ frac ]` with `frac = decimal-point 1*DIGIT`. -/
inductive Frac : Bytes → Prop
  | none : Frac []
  | some {ds : Bytes} (hd : Digits ds) (hne : ds ≠ []) : Frac (ch '.' :: ds)

/-- `[ exp ]` with `exp = e [ minus / plus ] 1*DIGIT`. -/
inductive Exp : Bytes → Prop
  | none : Exp []
  | some {e : UInt8} {sg ds : Bytes} (he : e = ch 'e' ∨ e = ch 'E') (hs : Sign sg) (hd : Digits ds)
      (hne : ds ≠ []) : Exp (e :: sg ++ ds)

/-- `number = [ minus ] int [ frac ] [ exp ]`. -/
inductive Number : Bytes → Prop
  | mk {neg : Bool} {ds fr ex : Bytes} (hi : Int ds) (hf : Frac fr) (he : Exp ex) :
      Number (signed neg ds ++ fr ++ ex)

mutual

/-- `value`. -/
inductive Value : Bytes → Prop
  | string {u : Bytes} (h : String u) : Value u
  | number {u : Bytes} (h : Number u) : Value u
  | emptyArray {w : Bytes} (h : Ws w) : Value (ch '[' :: w ++ [ch ']'])
  | array {t : Bytes} (h : Items t) : Value (ch '[' :: t ++ [ch ']'])
  | emptyObject {w : Bytes} (h : Ws w) : Value (ch '\x7b' :: w ++ [ch '\x7d'])
  | object {t : Bytes} (h : Members t) : Value (ch '\x7b' :: t ++ [ch '\x7d'])
  | litTrue : Value (ascii "true")
  | litFalse : Value (ascii "false")
  | litNull : Value (ascii "null")

/-- `value *( value-separator value )`, with the `ws` around the values. -/
inductive Items : Bytes → Prop
  | one {w u w' : Bytes} (hw : Ws w) (hv : Value u) (hw' : Ws w') : Items (w ++ u ++ w')
  | cons {w u w' t : Bytes} (hw : Ws w) (hv : Value u) (hw' : Ws w') (ht : Items t) :
      Items (w ++ u ++ w' ++ ch ',' :: t)

/-- `member *( value-separator member )`, with the `ws` around the members. -/
inductive Members : Bytes → Prop
  | one {w q w₁ w₂ u w' : Bytes} (hw : Ws w) (hk : String q) (hw₁ : Ws w₁) (hw₂ : Ws w₂)
      (hv : Value u) (hw' : Ws w') : Members (w ++ q ++ w₁ ++ ch ':' :: (w₂ ++ u ++ w'))
  | cons {w q w₁ w₂ u w' t : Bytes} (hw : Ws w) (hk : String q) (hw₁ : Ws w₁) (hw₂ : Ws w₂)
      (hv : Value u) (hw' : Ws w') (ht : Members t) :
      Members (w ++ q ++ w₁ ++ ch ':' :: (w₂ ++ u ++ w' ++ ch ',' :: t))

end

/-- `JSON-text = ws value ws`. -/
def Text (s : Bytes) : Prop := ∃ w u w', Ws w ∧ Value u ∧ Ws w' ∧ s = w ++ u ++ w'

end Rfc

/-! ## The automaton -/

/-- Where the automaton is: between tokens, in a string, behind a backslash in it, or in a part of
a number; `bad` is final. -/
inductive LexState where
  | out
  | str
  | esc
  | minus
  | zero
  | int
  | dot
  | frac
  | e
  | sign
  | exp
  | bad
  deriving Repr, DecidableEq

/-- The first byte of a token, or a byte between tokens. The two bytes that are white space for
`isspace` and not for JSON are refused. -/
def LexState.outside (c : UInt8) : LexState :=
  if c = ch '"' then .str
  else if c = ch '-' then .minus
  else if c = ch '0' then .zero
  else if isdigit c = true then .int
  else if c = 0x0B ∨ c = 0x0C then .bad
  else .out

/-- One byte further. A number that may end here is left the way a byte between tokens is read. -/
def LexState.next : LexState → UInt8 → LexState
  | .out, c => outside c
  | .str, c =>
    if c = ch '"' then .out else if c = ch '\\' then .esc else if c < 0x20 then .bad else .str
  | .esc, _ => .str
  | .minus, c => if c = ch '0' then .zero else if isdigit c = true then .int else .bad
  | .zero, c =>
    if isdigit c = true then .bad
    else if c = ch '.' then .dot else if expStart c = true then .e else outside c
  | .int, c =>
    if isdigit c = true then .int
    else if c = ch '.' then .dot else if expStart c = true then .e else outside c
  | .dot, c => if isdigit c = true then .frac else .bad
  | .frac, c =>
    if isdigit c = true then .frac else if expStart c = true then .e else outside c
  | .e, c =>
    if isdigit c = true then .exp else if c = ch '+' ∨ c = ch '-' then .sign else .bad
  | .sign, c => if isdigit c = true then .exp else .bad
  | .exp, c => if isdigit c = true then .exp else outside c
  | .bad, _ => .bad

/-- Between tokens, or at a place where a number may end. -/
def LexState.settled : LexState → Bool
  | .out | .zero | .int | .frac | .exp => true
  | _ => false

/-- In a number that must not end here, or refused. -/
def LexState.stuck : LexState → Bool
  | .minus | .dot | .e | .sign | .bad => true
  | _ => false

/-- The automaton: outside strings no `0x0B` and `0x0C`, inside strings no byte below `0x20`, and
every number of the form `-?(0|[1-9]D*)(.D+)?([eE][+-]?D+)?`. -/
def strictLexer : DFA UInt8 LexState where
  step := LexState.next
  start := .out
  accept := {st | st.settled = true}

/-- The state after the bytes of `u`. -/
abbrev LexState.run (st : LexState) (u : Bytes) : LexState := strictLexer.evalFrom st u

namespace LexState

variable {st : LexState}

theorem run_append (st : LexState) (u t : Bytes) : st.run (u ++ t) = (st.run u).run t :=
  strictLexer.evalFrom_of_append st u t

@[simp] theorem run_nil (st : LexState) : st.run [] = st := rfl

@[simp] theorem run_cons (st : LexState) (c : UInt8) (u : Bytes) :
    st.run (c :: u) = (st.next c).run u := rfl

@[simp] theorem run_bad (u : Bytes) : bad.run u = bad := by
  induction u with
  | nil => rfl
  | cons c u ih => exact ih

/-! ### Behind a token -/

/-- A token that may end is left behind. -/
theorem next_of_settled {c : UInt8} (hst : st.settled = true) (hc : delim c = true) :
    st.next c = outside c := by
  have hdigit : isdigit c = false := apart_delim_isdigit c hc
  have hexp : expStart c = false := apart_expStart_delim.symm c hc
  have hdot : c ≠ ch '.' := by
    rintro rfl
    exact absurd hc (by decide)
  cases st <;> simp_all [settled, next]

/-- A number that must not end has ended. -/
theorem next_of_stuck {c : UInt8} (hst : st.stuck = true) (hc : delim c = true) :
    st.next c = bad := by
  have hdigit : isdigit c = false := apart_delim_isdigit c hc
  have hne : ∀ k, delim k = false → c ≠ k := by
    rintro k hk rfl
    exact absurd hc (by simp [hk])
  have h0 := hne (ch '0') rfl
  have hplus := hne (ch '+') rfl
  have hminus := hne (ch '-') rfl
  cases st <;> simp_all [stuck, next]

/-- White space is JSON's, or refused. -/
theorem outside_of_isspace {c : UInt8} (hc : isspace c = true) :
    (outside c = out ∧ (c = 0x20 ∨ c = 0x09 ∨ c = 0x0A ∨ c = 0x0D)) ∨ outside c = bad := by
  have hbytes : c = 0x20 ∨ c = 0x09 ∨ c = 0x0A ∨ c = 0x0B ∨ c = 0x0C ∨ c = 0x0D := by
    rcases isspace_iff.mp hc with rfl | ⟨hlo, hhi⟩
    · exact .inl rfl
    · rw [UInt8.le_iff_toNat_le] at hlo hhi
      simp only [← UInt8.toNat_inj]
      simp only [UInt8.toNat_ofNat] at *
      omega
  rcases hbytes with rfl | rfl | rfl | rfl | rfl | rfl <;> simp [outside, ch, isdigit]

/-! ### White space and punctuation -/

/-- JSON white space is passed wherever a token may end. -/
theorem settled_ws {w : Bytes} (hw : Rfc.Ws w) (hst : st.settled = true) :
    (st.run w).settled = true ∧ (st = out → st.run w = out) := by
  induction w generalizing st with
  | nil => exact ⟨hst, id⟩
  | cons c w ih =>
    have hc := hw c List.mem_cons_self
    have hspace : isspace c = true := by rcases hc with rfl | rfl | rfl | rfl <;> rfl
    have hout : st.next c = out := by
      rw [next_of_settled hst (by simp [delim, hspace])]
      rcases hc with rfl | rfl | rfl | rfl <;> rfl
    rw [run_cons, hout]
    have htail := @ih out (fun d hd => hw d (List.mem_cons_of_mem _ hd)) rfl
    exact ⟨htail.1, fun _ => htail.2 rfl⟩

theorem run_ws {w : Bytes} (hw : Rfc.Ws w) : out.run w = out := (settled_ws hw rfl).2 rfl

/-- Any white space after a place where a token may end is JSON's, or refused. -/
theorem split_ws {w : Bytes} (hw : Ws w) (hst : st.settled = true) :
    Rfc.Ws w ∨ st.run w = bad := by
  induction w generalizing st with
  | nil => exact .inl fun _ h => absurd h List.not_mem_nil
  | cons c w ih =>
    have hspace := ws_iff.mp hw c List.mem_cons_self
    rw [run_cons, next_of_settled hst (by simp [delim, hspace])]
    rcases outside_of_isspace hspace with ⟨hout, hc⟩ | hbad
    · rw [hout]
      refine (ih (fun d hd => hw d (List.mem_cons_of_mem _ hd)) rfl).imp_left fun h d hd => ?_
      rcases List.mem_cons.mp hd with rfl | hd
      · exact hc
      · exact h d hd
    · rw [hbad, run_bad]
      exact .inr rfl

/-- White space does not free a number that must not end. -/
theorem stuck_ws {w : Bytes} (hw : Ws w) (hst : st.stuck = true) : (st.run w).stuck = true := by
  cases w with
  | nil => exact hst
  | cons c w =>
    have hspace := ws_iff.mp hw c List.mem_cons_self
    rw [run_cons, next_of_stuck hst (by simp [delim, hspace]), run_bad]
    rfl

/-! ### Strings -/

theorem next_str {c : UInt8} (hq : c ≠ ch '"') (hb : c ≠ ch '\\') (hc : 0x20 ≤ c) :
    str.next c = str := by
  rw [next, if_neg hq, if_neg hb, if_neg (UInt8.not_lt.mpr hc)]

theorem next_hex {c : UInt8} (hc : Rfc.Hex c) : str.next c = str := by
  have hne : c ≠ ch '"' ∧ c ≠ ch '\\' ∧ 0x20 ≤ c := by
    simp only [Rfc.Hex, UInt8.le_iff_toNat_le, ne_eq, ← UInt8.toNat_inj, ch] at hc ⊢
    simp only [UInt8.toNat_ofNat] at *
    refine ⟨fun h => ?_, fun h => ?_, ?_⟩ <;> simp at * <;> omega
  exact next_str hne.1 hne.2.1 hne.2.2

theorem run_chars {b : Bytes} (hb : Rfc.Chars b) : str.run b = str := by
  induction hb with
  | nil => rfl
  | unescaped hc hq hb _ ih => rw [run_cons, next_str hq hb hc, ih]
  | escape _ _ ih => exact ih
  | unicode ha hb hc hd _ ih =>
    change ((((str.next _).next _).next _).next _).run _ = _
    rw [next_hex ha, next_hex hb, next_hex hc, next_hex hd, ih]

theorem run_string {u : Bytes} (hu : Rfc.String u) : out.run u = out := by
  obtain ⟨b, hb, rfl⟩ := hu
  change str.run (b ++ [ch '"']) = out
  rw [run_append, run_chars hb]
  rfl

theorem split_body {b s : Bytes} (hb : StringBody b s) : Rfc.Chars b ∨ str.run b = bad := by
  induction hb with
  | nil => exact .inl .nil
  | @plain c u s hq hb _ ih =>
    by_cases hc : 0x20 ≤ c
    · rw [run_cons, next_str hq hb hc]
      exact ih.imp_left (.unescaped hc hq hb)
    · have hbad : str.next c = bad := by
        rw [next, if_neg hq, if_neg hb, if_pos (UInt8.not_le.mp hc)]
      rw [run_cons, hbad, run_bad]
      exact .inr rfl
  | escape he _ ih => exact ih.imp_left (.escape he)

theorem split_string {u s : Bytes} (hu : StringLit u s) : Rfc.String u ∨ out.run u = bad := by
  obtain ⟨b, hb, rfl⟩ := hu
  rcases split_body hb with h | h
  · exact .inl ⟨b, h, rfl⟩
  · right
    change str.run (b ++ [ch '"']) = bad
    rw [run_append, h, run_bad]

/-! ### Numbers -/

/-- A run of digits does not leave a state that a digit does not leave. -/
theorem run_digits {ds : Bytes} (hd : Digits ds) (hst : ∀ c, isdigit c = true → st.next c = st) :
    st.run ds = st := by
  induction ds with
  | nil => rfl
  | cons c ds ih =>
    rw [run_cons, hst c (digits_iff.mp hd c List.mem_cons_self)]
    exact ih fun d hd' => hd d (List.mem_cons_of_mem _ hd')

theorem next_int {c : UInt8} (hc : isdigit c = true) : int.next c = int := by simp [next, hc]

theorem next_frac {c : UInt8} (hc : isdigit c = true) : frac.next c = frac := by simp [next, hc]

theorem next_exp {c : UInt8} (hc : isdigit c = true) : exp.next c = exp := by simp [next, hc]

/-- The first digit of a number. -/
theorem next_first {c : UInt8} (hst : st = out ∨ st = minus) (hc : isdigit c = true) :
    st.next c = if c = ch '0' then zero else int := by
  have hq : c ≠ ch '"' := by
    rintro rfl
    exact absurd hc (by decide)
  have hm : c ≠ ch '-' := by
    rintro rfl
    exact absurd hc (by decide)
  rcases hst with rfl | rfl
  · rw [next, outside, if_neg hq, if_neg hm, if_pos hc]
  · rw [next, if_pos hc]

theorem isdigit_of_first {c : UInt8} (hc : 0x31 ≤ c ∧ c ≤ 0x39) : isdigit c = true ∧ c ≠ ch '0' := by
  constructor
  · exact isdigit_iff.mpr ⟨UInt8.le_trans (by decide) hc.1, hc.2⟩
  · rintro rfl
    exact absurd hc.1 (by decide)

theorem run_int {ds : Bytes} (hst : st = out ∨ st = minus) (hi : Rfc.Int ds) :
    st.run ds = zero ∨ st.run ds = int := by
  cases hi with
  | zero =>
    left
    rw [run_cons, next_first hst rfl]
    rfl
  | digits hc hd =>
    right
    obtain ⟨hdigit, hne⟩ := isdigit_of_first hc
    rw [run_cons, next_first hst hdigit, if_neg hne]
    exact run_digits hd fun _ => next_int

/-- Digits that are not an `int` leave the automaton where it was, or are refused. -/
theorem split_int {ds : Bytes} (hst : st = out ∨ st = minus) (hd : Digits ds) :
    Rfc.Int ds ∨ ds = [] ∨ st.run ds = bad := by
  cases ds with
  | nil => exact .inr (.inl rfl)
  | cons c ds =>
    have hc := digits_iff.mp hd c List.mem_cons_self
    have hd' : Digits ds := fun d h => hd d (List.mem_cons_of_mem _ h)
    by_cases h0 : c = ch '0'
    · cases ds with
      | nil => exact .inl (h0 ▸ .zero)
      | cons d ds =>
        have hbad : zero.next d = bad := by simp [next, digits_iff.mp hd' d List.mem_cons_self]
        rw [run_cons, next_first hst hc, if_pos h0, run_cons, hbad, run_bad]
        exact .inr (.inr rfl)
    · refine .inl (.digits ?_ hd')
      have hbounds := isdigit_iff.mp hc
      simp only [UInt8.le_iff_toNat_le, ← UInt8.toNat_inj, ch] at hbounds h0 ⊢
      simp at hbounds h0 ⊢
      omega

theorem run_signed (neg : Bool) (ds : Bytes) :
    ∃ st, (st = out ∨ st = minus) ∧ (neg = true → st = minus) ∧
      out.run (signed neg ds) = st.run ds := by
  cases neg with
  | true => exact ⟨minus, .inr rfl, fun _ => rfl, rfl⟩
  | false => exact ⟨out, .inl rfl, fun h => absurd h (by simp), rfl⟩

theorem run_frac {fr : Bytes} (hst : st = zero ∨ st = int) (hf : Rfc.Frac fr) :
    st.run fr = zero ∨ st.run fr = int ∨ st.run fr = frac := by
  cases hf with
  | none => exact hst.imp_right .inl
  | @some ds hd hne =>
    obtain ⟨d, ds, rfl⟩ := List.exists_cons_of_ne_nil hne
    have hdot : st.next (ch '.') = dot := by rcases hst with rfl | rfl <;> rfl
    have hfrac : dot.next d = frac := by simp [next, digits_iff.mp hd d List.mem_cons_self]
    right; right
    rw [run_cons, hdot, run_cons, hfrac]
    exact run_digits (fun c h => hd c (List.mem_cons_of_mem _ h)) fun _ => next_frac

theorem split_frac {fr : Bytes} {b : Bool} (hst : st = zero ∨ st = int) (hf : Fraction fr b) :
    Rfc.Frac fr ∨ st.run fr = dot := by
  cases hf with
  | none => exact .inl .none
  | @some ds hd =>
    by_cases hne : ds = []
    · subst hne
      right
      rcases hst with rfl | rfl <;> rfl
    · exact .inl (.some hd hne)

/-- The state behind the `e`, and behind the sign. -/
theorem run_sign {e' : UInt8} {sg : Bytes} (hst : st = zero ∨ st = int ∨ st = frac)
    (he : e' = ch 'e' ∨ e' = ch 'E') (hs : Sign sg) :
    st.run (e' :: sg) = e ∨ st.run (e' :: sg) = sign := by
  have hnext : st.next e' = e := by
    rcases hst with rfl | rfl | rfl <;> rcases he with rfl | rfl <;> rfl
  rw [run_cons, hnext]
  rcases hs with rfl | rfl | rfl
  · exact .inl rfl
  · exact .inr rfl
  · exact .inr rfl

theorem run_exp {ex : Bytes} (hst : st = zero ∨ st = int ∨ st = frac) (he : Rfc.Exp ex) :
    (st.run ex).settled = true := by
  cases he with
  | none => rcases hst with rfl | rfl | rfl <;> rfl
  | @some e' sg ds he hs hd hne =>
    obtain ⟨d, ds, rfl⟩ := List.exists_cons_of_ne_nil hne
    have hexp : ((st.run (e' :: sg)).next d) = exp := by
      have hdigit := digits_iff.mp hd d List.mem_cons_self
      rcases run_sign hst he hs with h | h <;> simp [h, next, hdigit]
    rw [run_append, run_cons, hexp,
      run_digits (fun c h => hd c (List.mem_cons_of_mem _ h)) fun _ => next_exp]
    rfl

theorem split_exp {ex : Bytes} {b : Bool} (hst : st = zero ∨ st = int ∨ st = frac)
    (he : Exponent ex b) : Rfc.Exp ex ∨ (st.run ex).stuck = true := by
  cases he with
  | none => exact .inl .none
  | @some e' sg ds he hs hd =>
    by_cases hne : ds = []
    · subst hne
      rw [List.append_nil]
      rcases run_sign hst he hs with h | h <;> exact .inr (h ▸ rfl)
    · exact .inl (.some he hs hd hne)

theorem settled_number {u : Bytes} (hu : Rfc.Number u) : (out.run u).settled = true := by
  cases hu with
  | @mk neg ds fr ex hi hf he =>
    obtain ⟨st, hst, -, hrun⟩ := run_signed neg ds
    rw [run_append, run_append, hrun]
    exact run_exp (run_frac (run_int hst hi) hf) he

/-- A part of a number that must not end is not freed by what follows in the token. -/
theorem stuck_parts {fr ex : Bytes} {bf be : Bool} (hst : st = minus ∨ st = dot ∨ st = bad)
    (hf : Fraction fr bf) (he : Exponent ex be) : ((st.run fr).run ex).stuck = true := by
  have hfr : st.run fr = minus ∨ st.run fr = dot ∨ st.run fr = bad := by
    cases hf with
    | none => exact hst
    | some =>
      right; right
      rcases hst with rfl | rfl | rfl <;> exact run_bad _
  generalize st.run fr = st' at hfr
  cases he with
  | none => rcases hfr with rfl | rfl | rfl <;> rfl
  | @some e' sg ds hE =>
    have hbad : st'.next e' = bad := by
      rcases hfr with rfl | rfl | rfl <;> rcases hE with rfl | rfl <;> rfl
    rw [List.cons_append, run_cons, hbad, run_bad]
    rfl

theorem split_token {neg : Bool} {ds fr ex : Bytes} {bf be : Bool} (hd : Digits ds)
    (hstart : neg = true ∨ ds ≠ []) (hf : Fraction fr bf) (he : Exponent ex be) :
    Rfc.Number (signed neg ds ++ fr ++ ex) ∨
      (out.run (signed neg ds ++ fr ++ ex)).stuck = true := by
  obtain ⟨st, hst, hneg, hrun⟩ := run_signed neg ds
  rw [run_append, run_append, hrun]
  rcases split_int hst hd with hi | hnil | hbad
  · have hint := run_int hst hi
    rcases split_frac hint hf with hfr | hdot
    · exact (split_exp (run_frac hint hfr) he).imp_left fun hex => .mk hi hfr hex
    · exact .inr (by rw [hdot]; exact stuck_parts (.inr (.inl rfl)) .none he)
  · rw [hnil, run_nil, hneg (hstart.resolve_right (not_not.mpr hnil))]
    exact .inr (stuck_parts (.inl rfl) hf he)
  · rw [hbad]
    exact .inr (stuck_parts (.inr (.inr rfl)) hf he)

end LexState

end CppExamples.Json
