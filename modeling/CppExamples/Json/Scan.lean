import CppExamples.Json.Grammar
import CppExamples.Json.Parser

/-!
# The scanner against the grammar

Each scanning function of the parser, tied to the grammar in both directions: what it read when
it returned (`…_sound`), and that it returns on a derivable text (`…_complete`). The connection
is `Cursor.Reads p u q`: the bytes between the parser before and after the call.

Numbers are in `Json/Numbers.lean`.
-/

namespace CppExamples.Json

open Lib Lib.Cursor

/-! ## Character classes -/

theorem isspace_iff {c : UInt8} : isspace c = true ↔ c = 0x20 ∨ (0x09 ≤ c ∧ c ≤ 0x0D) := by
  simp [isspace]

theorem isdigit_iff {c : UInt8} : isdigit c = true ↔ 0x30 ≤ c ∧ c ≤ 0x39 := by
  simp [isdigit]

theorem ws_iff {w : Bytes} : Ws w ↔ ∀ c ∈ w, isspace c = true := by
  simp only [Ws, isspace_iff]

/-- White space by evaluation. -/
theorem ws_of_all {w : Bytes} (h : w.all isspace = true) : Ws w := ws_iff.mpr (List.all_eq_true.mp h)

theorem digits_iff {ds : Bytes} : Digits ds ↔ ∀ c ∈ ds, isdigit c = true := by
  simp only [Digits, isdigit_iff]

theorem Ws.nil : Ws [] := fun _ h => absurd h List.not_mem_nil

theorem Ws.append {w w' : Bytes} (h : Ws w) (h' : Ws w') : Ws (w ++ w') := fun c hc =>
  (List.mem_append.mp hc).elim (h c) (h' c)

/-- The bytes that can follow a value in a text. -/
def delim (c : UInt8) : Bool := c == ch ',' || c == ch ']' || c == ch '\x7d' || isspace c

/-- `t` starts with a byte of the class `f`. -/
def Head (f : UInt8 → Bool) (t : Bytes) : Prop := ∃ c s, t = c :: s ∧ f c = true

theorem Head.imp {f g : UInt8 → Bool} {t : Bytes} (h : Head f t)
    (hfg : ∀ c, f c = true → g c = true) : Head g t := by
  obtain ⟨c, s, rfl, hc⟩ := h
  exact ⟨c, s, rfl, hfg c hc⟩

theorem Head.ne_nil {f : UInt8 → Bool} {t : Bytes} (h : Head f t) : t ≠ [] := by
  obtain ⟨c, s, rfl, -⟩ := h
  exact List.cons_ne_nil c s

theorem Head.append {f : UInt8 → Bool} {t : Bytes} (h : Head f t) (s : Bytes) :
    Head f (t ++ s) := by
  obtain ⟨c, r, rfl, hc⟩ := h
  exact ⟨c, r ++ s, rfl, hc⟩

/-- A nonempty run of one class, or nothing and then another class. -/
theorem Head.run {f g : UInt8 → Bool} {u t : Bytes} (hu : ∀ c ∈ u, f c = true) (ht : Head g t) :
    Head (fun c => f c || g c) (u ++ t) := by
  cases u with
  | nil => exact ht.imp fun c hc => by simp [hc]
  | cons c u => exact ⟨c, u ++ t, rfl, by simp [hu c List.mem_cons_self]⟩

theorem Head.stops {f g : UInt8 → Bool} {t : Bytes} (h : Head f t)
    (hfg : ∀ c, f c = true → g c = false) : Stops g t := by
  obtain ⟨c, s, rfl, hc⟩ := h
  exact Stops.cons (hfg c hc)

/-! ## Classes of bytes -/

/-- No byte is in both classes. -/
def Apart (f g : UInt8 → Bool) : Prop := ∀ c, f c = true → g c = false

theorem Apart.symm {f g : UInt8 → Bool} (h : Apart f g) : Apart g f := by
  intro c hg
  by_contra hf
  rw [Bool.not_eq_false] at hf
  rw [h c hf] at hg
  exact Bool.false_ne_true hg

theorem apart_byte {g : UInt8 → Bool} {k : UInt8} (h : g k = false) : Apart (· == k) g :=
  fun _ hc => eq_of_beq hc ▸ h

theorem Apart.or {f f' g : UInt8 → Bool} (h : Apart f g) (h' : Apart f' g) :
    Apart (fun c => f c || f' c) g := by
  intro c hc
  rcases Bool.or_eq_true_iff.mp hc with hf | hf
  · exact h c hf
  · exact h' c hf

theorem apart_isspace_isdigit : Apart isspace isdigit :=
  Apart.symm fun _ => not_isspace_of_isdigit

/-- A class without the four kinds of delimiters. -/
theorem apart_delim {g : UInt8 → Bool} (hcomma : g (ch ',') = false) (hbracket : g (ch ']') = false)
    (hbrace : g (ch '\x7d') = false) (hspace : Apart isspace g) : Apart delim g :=
  (((apart_byte hcomma).or (apart_byte hbracket)).or (apart_byte hbrace)).or hspace

theorem apart_delim_isdigit : Apart delim isdigit :=
  apart_delim rfl rfl rfl apart_isspace_isdigit

/-! ## One byte at a time -/

theorem peek_of_rest {p : JsonParser} {c : UInt8} {t : Bytes} (h : p.rest = c :: t) :
    peek p = .ret c := by
  have hlt := pos_lt_of_rest h
  rw [peek, dif_pos hlt, (getElem_of_rest h hlt).1]

theorem rest_of_peek {p : JsonParser} {c : UInt8} (h : peek p = .ret c) :
    ∃ t, p.rest = c :: t := by
  unfold peek at h
  split at h
  · rename_i hlt
    obtain rfl := Outcome.ret.inj h
    exact ⟨_, p.rest_eq_cons hlt⟩
  · exact absurd h (by simp)

theorem consume_of_reads {p q : JsonParser} {c : UInt8} (h : Reads p [c] q) :
    consume p = .ret (c, q) := by
  have hlt := pos_lt_of_rest h.rest
  obtain ⟨hc, -⟩ := getElem_of_rest h.rest hlt
  have hq : p.next hlt = q := (hc ▸ Reads.next p hlt).unique h
  rw [consume, dif_pos hlt, hc, hq]

theorem reads_of_consume {p q : JsonParser} {c : UInt8} (h : consume p = .ret (c, q)) :
    Reads p [c] q := by
  unfold consume at h
  split at h
  · rename_i hlt
    obtain ⟨rfl, rfl⟩ := Prod.mk.inj (Outcome.ret.inj h)
    exact Reads.next p hlt
  · exact absurd h (by simp)

/-- `skip_whitespace` reads white space, all of it. -/
theorem exists_skipWhitespace (p : JsonParser) :
    ∃ w, Ws w ∧ Reads p w (skipWhitespace p) ∧ Stops isspace (skipWhitespace p).rest := by
  obtain ⟨w, hr, hw, hs⟩ := exists_skipWhile isspace p
  exact ⟨w, ws_iff.mpr hw, hr, hs⟩

theorem skipWhitespace_eq {p q : JsonParser} {w : Bytes} (hw : Ws w) (h : Reads p w q)
    (hq : Stops isspace q.rest) : skipWhitespace p = q :=
  skipWhile_eq h (ws_iff.mp hw) hq

theorem expect_sound {c : UInt8} {p q : JsonParser} (h : expect c p = .ret q) :
    ∃ w, Ws w ∧ Reads p (w ++ [c]) q := by
  obtain ⟨w, hw, hr, -⟩ := exists_skipWhitespace p
  obtain ⟨got, hgot, h⟩ := Outcome.bind_eq_ret_iff.mp h
  split at h
  · rename_i hc
    obtain ⟨⟨c', q'⟩, hcons, hq⟩ := Outcome.bind_eq_ret_iff.mp h
    obtain rfl := Outcome.ret.inj hq
    obtain ⟨t, ht⟩ := rest_of_peek hgot
    have hread := reads_of_consume hcons
    have : c' = c := by
      have := ht.symm.trans hread.rest
      rw [hc] at this
      exact (List.cons.inj this).1.symm
    exact ⟨w, hw, hr.trans (this ▸ hread)⟩
  · exact absurd h (by simp)

theorem expect_complete {c : UInt8} {p q : JsonParser} {w : Bytes} (hw : Ws w)
    (hc : isspace c = false) (h : Reads p (w ++ [c]) q) : expect c p = .ret q := by
  obtain ⟨r, hpr, hrq⟩ := h.split
  have hskip : skipWhitespace p = r :=
    skipWhitespace_eq hw hpr (hrq.rest ▸ Stops.cons hc)
  have hpeek : peek r = .ret c := peek_of_rest hrq.rest
  simp [expect, hskip, hpeek, consume_of_reads hrq]

/-- Where the expected byte comes next, no white space is skipped. -/
theorem expect_here {c : UInt8} {p q : JsonParser} {t : Bytes} (hc : isspace c = false)
    (hp : p.rest = c :: t) (h : expect c p = .ret q) : Reads p [c] q := by
  obtain ⟨r, hr, -⟩ := exists_reads (u := [c]) (t := t) hp
  have hq : expect c p = .ret r := expect_complete Ws.nil hc hr
  rw [Outcome.ret.inj (hq.symm.trans h)] at hr
  exact hr

/-! ## Strings -/

theorem unescape_iff {e c : UInt8} : unescape e = some c ↔ Escape e c := by
  constructor
  · intro h
    unfold unescape at h
    split at h
    · rename_i he; obtain rfl := Option.some.inj h; exact he ▸ .quote
    split at h
    · rename_i he; obtain rfl := Option.some.inj h; exact he ▸ .backslash
    split at h
    · rename_i he; obtain rfl := Option.some.inj h; exact he ▸ .slash
    split at h
    · rename_i he; obtain rfl := Option.some.inj h; exact he ▸ .b
    split at h
    · rename_i he; obtain rfl := Option.some.inj h; exact he ▸ .f
    split at h
    · rename_i he; obtain rfl := Option.some.inj h; exact he ▸ .n
    split at h
    · rename_i he; obtain rfl := Option.some.inj h; exact he ▸ .r
    split at h
    · rename_i he; obtain rfl := Option.some.inj h; exact he ▸ .t
    · exact absurd h (by simp)
  · intro h
    cases h <;> rfl

theorem stringLoop_sound {p q : JsonParser} {s s' : Bytes} (h : stringLoop p s = .ret (s', q)) :
    ∃ u b, StringBody u b ∧ s' = s ++ b ∧ Reads p u q ∧ ∃ t, q.rest = ch '"' :: t := by
  fun_induction stringLoop p s with
  | case1 p s hlt hq =>
    obtain ⟨rfl, rfl⟩ := Prod.mk.inj (Outcome.ret.inj h)
    exact ⟨[], [], .nil, (List.append_nil s).symm, Reads.refl p, _,
      hq ▸ p.rest_eq_cons hlt⟩
  | case2 p s hlt hq hb hlt' c hc ih =>
    obtain ⟨u, b, hub, rfl, hr, ht⟩ := ih h
    have h1 : Reads p [ch '\\'] (p.next hlt) := hb ▸ Reads.next p hlt
    have h2 := Reads.next (p.next hlt) hlt'
    exact ⟨_, c :: b, .escape (unescape_iff.mp hc) hub, by simp, (h1.trans h2).trans hr, ht⟩
  | case3 => exact absurd h (by simp)
  | case4 => exact absurd h (by simp)
  | case5 p s hlt hq hb ih =>
    obtain ⟨u, b, hub, rfl, hr, ht⟩ := ih h
    exact ⟨_, _, .plain hq hb hub, by simp, (Reads.next p hlt).trans hr, ht⟩
  | case6 => exact absurd h (by simp)

theorem stringLoop_complete {u b : Bytes} (hub : StringBody u b) {p q : JsonParser} {t : Bytes}
    (hr : Reads p u q) (hq : q.rest = ch '"' :: t) (s : Bytes) :
    stringLoop p s = .ret (s ++ b, q) := by
  induction hub generalizing p s with
  | nil =>
    have hlt := pos_lt_of_rest hq
    obtain rfl := hr.unique (Reads.refl p)
    rw [stringLoop, dif_pos hlt, if_pos (getElem_of_rest hq hlt).1, List.append_nil]
  | @plain c u b hcq hcb _ ih =>
    obtain ⟨r, hpr, hrq⟩ := Reads.split (u := [c]) hr
    have hlt := pos_lt_of_rest hpr.rest
    have hc := (getElem_of_rest hpr.rest hlt).1
    have hnext : p.next hlt = r := (hc ▸ Reads.next p hlt).unique hpr
    rw [stringLoop, dif_pos hlt, hc, if_neg hcq, if_neg hcb, hnext, ih hrq, List.append_assoc]
    rfl
  | @escape e c u b he _ ih =>
    obtain ⟨r, hpr, hrq⟩ := Reads.split (u := [ch '\\']) hr
    obtain ⟨r', hrr', hr'q⟩ := Reads.split (u := [e]) hrq
    have hlt := pos_lt_of_rest hpr.rest
    have hc := (getElem_of_rest hpr.rest hlt).1
    have hnext : p.next hlt = r := (hc ▸ Reads.next p hlt).unique hpr
    have hlt' : (p.next hlt).pos < (p.next hlt).text.length := by
      rw [hnext]; exact pos_lt_of_rest hrr'.rest
    have he' : (p.next hlt).text[(p.next hlt).pos] = e :=
      (getElem_of_rest (hnext ▸ hrr'.rest) hlt').1
    have hnext' : (p.next hlt).next hlt' = r' :=
      (he' ▸ Reads.next (p.next hlt) hlt').unique (hnext ▸ hrr')
    rw [stringLoop, dif_pos hlt, hc, if_neg (by decide), if_pos rfl, dif_pos hlt', he',
      unescape_iff.mpr he]
    simp only
    rw [hnext', ih hr'q, List.append_assoc]
    rfl

theorem parseString_sound {p q : JsonParser} {s : Bytes} (h : parseString p = .ret (s, q)) :
    ∃ w u, Ws w ∧ StringLit u s ∧ Reads p (w ++ u) q := by
  obtain ⟨p₁, h1, h⟩ := Outcome.bind_eq_ret_iff.mp h
  obtain ⟨⟨s', p₂⟩, h2, h⟩ := Outcome.bind_eq_ret_iff.mp h
  obtain ⟨p₃, h3, h⟩ := Outcome.bind_eq_ret_iff.mp h
  obtain ⟨rfl, rfl⟩ := Prod.mk.inj (Outcome.ret.inj h)
  obtain ⟨w, hw, hr1⟩ := expect_sound h1
  obtain ⟨u, b, hub, rfl, hr2, t, ht⟩ := stringLoop_sound h2
  have hr3 := expect_here (by decide) ht h3
  refine ⟨w, ch '"' :: u ++ [ch '"'], hw, ⟨u, hub, rfl⟩, ?_⟩
  have := (hr1.trans hr2).trans hr3
  simpa using this

theorem parseString_complete {p q : JsonParser} {w u s : Bytes} (hw : Ws w) (hu : StringLit u s)
    (h : Reads p (w ++ u) q) : parseString p = .ret (s, q) := by
  obtain ⟨b, hb, rfl⟩ := hu
  have hshape : w ++ (ch '"' :: b ++ [ch '"']) = (w ++ [ch '"']) ++ (b ++ [ch '"']) := by simp
  rw [hshape] at h
  obtain ⟨p₁, h1, h⟩ := h.split
  obtain ⟨p₂, h2, h3⟩ := h.split
  have e1 : expect (ch '"') p = .ret p₁ := expect_complete hw (by decide) h1
  have e2 : stringLoop p₁ [] = .ret (s, p₂) := stringLoop_complete hb h2 h3.rest []
  have e3 : expect (ch '"') p₂ = .ret q := expect_complete Ws.nil (by decide) h3
  simp [parseString, e1, e2, e3]

/-! ## Literals -/

variable {D : Type}

theorem literalLoop_sound {literal l : Bytes} {p q : JsonParser}
    (h : literalLoop literal l p = .ret q) : Reads p l q := by
  induction l generalizing p with
  | nil =>
    obtain rfl := Outcome.ret.inj h
    exact Reads.refl p
  | cons c l ih =>
    unfold literalLoop at h
    split at h
    · rename_i hlt
      split at h
      · rename_i hc
        exact (hc ▸ Reads.next p hlt).trans (ih h)
      · exact absurd h (by simp)
    · exact absurd h (by simp)

theorem literalLoop_complete {literal l : Bytes} {p q : JsonParser} (h : Reads p l q) :
    literalLoop literal l p = .ret q := by
  induction l generalizing p with
  | nil => rw [literalLoop, h.unique (Reads.refl p)]
  | cons c l ih =>
    obtain ⟨r, hpr, hrq⟩ := Reads.split (u := [c]) h
    have hlt := pos_lt_of_rest hpr.rest
    have hc := (getElem_of_rest hpr.rest hlt).1
    have hnext : p.next hlt = r := (hc ▸ Reads.next p hlt).unique hpr
    rw [literalLoop, dif_pos hlt, if_pos hc, hnext, ih hrq]

theorem parseLiteral_sound {literal : Bytes} {value v : JsonValue D} {p q : JsonParser}
    (h : parseLiteral literal value p = .ret (v, q)) : v = value ∧ Reads p literal q := by
  obtain ⟨q', hl, h⟩ := Outcome.bind_eq_ret_iff.mp h
  obtain ⟨rfl, rfl⟩ := Prod.mk.inj (Outcome.ret.inj h)
  exact ⟨rfl, literalLoop_sound hl⟩

theorem parseLiteral_complete {literal : Bytes} (value : JsonValue D) {p q : JsonParser}
    (h : Reads p literal q) : parseLiteral literal value p = .ret (value, q) := by
  simp [parseLiteral, literalLoop_complete h]

end CppExamples.Json
