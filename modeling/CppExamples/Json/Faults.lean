import CppExamples.Json.Streaming

/-!
# What an exception of the parser means

`Explained` says for each exception of a call what the parser saw at its position `p`.

* "Unexpected end of input": what is left can go on, unless the text ends in a byte of a number.
* The byte named in a message is the byte at the position named there, and a `Misfit`: it is no
  white space, what stands in front of it can go on, and with this byte it cannot: the call throws
  the same exception whatever stands behind the byte (`Decides`).

`explainedAt` carries it through the descent, over the beginnings of `Json/Prefixes.lean`. The
results:

* `parse_unexpectedEnd_iff`: "Unexpected end of input" is thrown exactly for the texts that are no
  documents and beginnings of documents.
* `parse_located`: the position in a message is the first byte that does not fit.
-/

namespace CppExamples.Json

open Lib Lib.Cursor
open Lib.Outcome (bind_eq_throw_iff throw_bind)

section Explained

variable {α β : Type} {f : Nat → JsonParser → Call α} {g : Nat → JsonParser → Call β} {k k' : Nat}
  {begins begins' : Bytes → Prop} {p q : JsonParser} {e : ParseError}

/-- At the position `pos` the call `f` throws `e` for every text that goes on with `u`, with fuel
for the text. -/
def Decides (f : Nat → JsonParser → Call α) (k pos : Nat) (u : Bytes) (e : ParseError) : Prop :=
  ∀ n p, p.pos = pos → u <+: p.rest → 3 * p.rest.length + k ≤ n → f n p = .throw e

/-- The byte `c` at `pos` is the first that does not fit, where `f` is called at `p`. -/
def Misfit (begins : Bytes → Prop) (f : Nat → JsonParser → Call α) (k : Nat) (p : JsonParser)
    (c : UInt8) (pos : Nat) (e : ParseError) : Prop :=
  ∃ a, a ++ [c] <+: p.rest ∧ pos = p.pos + a.length ∧ isspace c = false ∧ begins a ∧
    Decides f k p.pos (a ++ [c]) e

/-- What the exception `e` of `f` at `p` says about the text. -/
def Explained (begins : Bytes → Prop) (f : Nat → JsonParser → Call α) (k : Nat) (p : JsonParser)
    (e : ParseError) : Prop :=
  match e with
  | .unexpectedEnd => endsInToken p.text = true ∨ begins p.rest
  | .expected c got pos => got ≠ c ∧ Misfit begins f k p got pos e
  | .unexpectedCharacter c pos => valueStart c = false ∧ Misfit begins f k p c pos e
  | .extraCharacters _ => False
  | _ => True

/-- What `g` throws at `q`, `f` throws where it reads `r` from `p` to `q`. -/
def Passes (f : Nat → JsonParser → Call α) (k : Nat) (r : Bytes) (g : Nat → JsonParser → Call β)
    (k' : Nat) (c : UInt8) : Prop :=
  ∀ n p q, Reads p r q → q.rest.head? = some c → 3 * p.rest.length + k ≤ n →
    ∃ m, 3 * q.rest.length + k' ≤ m ∧ ∀ e, g m q = .throw e → f n p = .throw e

theorem Misfit.of_reads {c : UInt8} {pos : Nat} {r : Bytes} (h : Misfit begins' g k' q c pos e)
    (hr : Reads p r q) (hbegins : ∀ a, begins' a → begins (r ++ a))
    (hpass : ∀ d, q.rest.head? = some d → Passes f k r g k' d) : Misfit begins f k p c pos e := by
  obtain ⟨a, hpre, hpos, hspace, ha, hdecides⟩ := h
  refine ⟨r ++ a, ?_, by rw [hpos, hr.pos, List.length_append, Nat.add_assoc], hspace,
    hbegins a ha, fun n p' hp' hpre' hn => ?_⟩
  · rw [List.append_assoc, hr.rest]
    exact (List.prefix_append_right_inj r).mpr hpre
  · rw [List.append_assoc] at hpre'
    obtain ⟨t, ht⟩ := hpre'
    rw [List.append_assoc] at ht
    obtain ⟨q', hr', hq'⟩ := exists_reads ht.symm
    -- the byte behind `r` is the same in both texts
    have hhead : ∀ {l : Bytes}, a ++ [c] <+: l → l.head? = (a ++ [c]).head? := fun h => by
      obtain ⟨t, rfl⟩ := h
      rw [List.head?_append_of_ne_nil _ (by simp)]
    obtain ⟨d, hd⟩ : ∃ d, (a ++ [c]).head? = some d := ⟨_, List.head?_eq_some_head (by simp)⟩
    have hpre' : a ++ [c] <+: q'.rest := ⟨t, hq'.symm⟩
    obtain ⟨m, hm, himp⟩ := hpass d ((hhead hpre).trans hd) n p' q' hr' ((hhead hpre').trans hd) hn
    refine himp e (hdecides m q' ?_ hpre' hm)
    rw [hr'.pos, hp', hr.pos]

/-- **An exception of a part, explained for the whole.** `r` was read in front of the part. -/
theorem Explained.of_reads {r : Bytes} (h : Explained begins' g k' q e) (hr : Reads p r q)
    (hbegins : ∀ a, begins' a → begins (r ++ a))
    (hpass : ∀ c, q.rest.head? = some c → Passes f k r g k' c) : Explained begins f k p e := by
  cases e with
  | unexpectedEnd =>
    refine Or.imp (fun h => hr.text ▸ h) (fun h => ?_) h
    rw [hr.rest]
    exact hbegins _ h
  | expected c got pos => exact ⟨h.1, h.2.of_reads hr hbegins hpass⟩
  | unexpectedCharacter c pos => exact ⟨h.1, h.2.of_reads hr hbegins hpass⟩
  | _ => exact h

/-- What `g` throws, `f` throws with `d` units of fuel more. -/
theorem Passes.of_throw {d : Nat} {c : UInt8}
    (hf : ∀ n p e, p.rest.head? = some c → g n p = .throw e → f (n + d) p = .throw e)
    (hk : k' + d ≤ k) : Passes f k [] g k' c := by
  intro n p q hr hc hn
  obtain rfl := hr.unique (Reads.refl p)
  obtain ⟨n, rfl⟩ : ∃ m, n = m + d := ⟨n - d, by omega⟩
  exact ⟨n, by omega, fun e he => hf n q e hc he⟩

/-- The first part of `f` threw. -/
theorem Explained.first {d : Nat} (h : Explained begins' g k' p e)
    (hbegins : ∀ a, begins' a → begins a)
    (hf : ∀ n p e, g n p = .throw e → f (n + d) p = .throw e) (hk : k' + d ≤ k) :
    Explained begins f k p e :=
  h.of_reads (Reads.refl p) hbegins fun _ _ => .of_throw (fun n p e _ => hf n p e) hk

end Explained

section Scanner

variable {p q : JsonParser} {e : ParseError} {c : UInt8} {begins : Bytes → Prop}

theorem peek_throw (h : peek p = .throw e) : e = .unexpectedEnd ∧ p.rest = [] := by
  unfold peek at h
  split at h
  · exact absurd h (by simp)
  · rename_i hn
    exact ⟨(Outcome.throw.inj h).symm, p.rest_eq_nil hn⟩

/-- After a look at a byte it can be consumed. -/
theorem consume_ne_throw (h : peek p = .ret c) : consume p ≠ .throw e := by
  obtain ⟨t, ht⟩ := rest_of_peek h
  rw [consume, dif_pos (pos_lt_of_rest ht)]
  exact fun h => absurd h (by simp)

theorem ws_of_skip (h : (skipWhitespace p).rest = []) : Ws p.rest := by
  obtain ⟨w, hw, hr, -⟩ := exists_skipWhitespace p
  rw [hr.rest, h, List.append_nil]
  exact hw

theorem explained_expect {k : Nat} (h : expect c p = .throw e)
    (hbegins : ∀ w, Ws w → begins w) : Explained begins (fun _ => expect c) k p e := by
  obtain ⟨w, hw, hr, hstops⟩ := exists_skipWhitespace p
  rcases bind_eq_throw_iff.mp h with h | ⟨got, hgot, h⟩
  · obtain ⟨rfl, hnil⟩ := peek_throw h
    exact .inr (hbegins _ (ws_of_skip hnil))
  split at h
  · rcases bind_eq_throw_iff.mp h with h | ⟨r, -, h⟩
    · exact absurd h (consume_ne_throw hgot)
    · exact absurd h (by simp)
  rename_i hne
  obtain rfl := Outcome.throw.inj h
  obtain ⟨l, hl⟩ := rest_of_peek hgot
  have hspace := hstops got l hl
  refine ⟨hne, w, ⟨l, ?_⟩, hr.pos, hspace, hbegins w hw, fun n p' hpos hpre _ => ?_⟩
  · rw [hr.rest, hl, List.append_assoc, List.singleton_append]
  · obtain ⟨t, ht⟩ := hpre
    rw [List.append_assoc, List.singleton_append] at ht
    obtain ⟨q', hr', hq'⟩ := exists_reads ht.symm
    have hskip : skipWhitespace p' = q' := skipWhitespace_eq hw hr' (hq' ▸ Stops.cons hspace)
    simp only [expect, hskip, peek_of_rest hq', Outcome.ret_bind, if_neg hne, hr'.pos, hpos, hr.pos]

/-- Where the expected byte comes next, nothing is thrown. -/
theorem expect_ne_throw {t : Bytes} (hc : isspace c = false) (hp : p.rest = c :: t) :
    expect c p ≠ .throw e := by
  obtain ⟨q, hq, -⟩ := exists_reads (u := [c]) (t := t) hp
  rw [expect_complete Ws.nil hc hq]
  exact fun h => absurd h (by simp)

theorem stringLoop_throw {b : Bytes} (h : stringLoop p b = .throw e) :
    e = .invalidEscape ∨ e = .unexpectedEnd ∧ ∃ t x, StringBody (p.rest ++ t) x := by
  fun_induction stringLoop p b with
  | case1 => exact absurd h (by simp)
  | case2 p b hlt hquote hback hlt2 c hc ih =>
    refine (ih h).imp_right fun hbody => ⟨hbody.1, ?_⟩
    obtain ⟨-, t, x, hx⟩ := hbody
    refine ⟨t, c :: x, ?_⟩
    rw [p.rest_eq_cons hlt, hback, (p.next hlt).rest_eq_cons hlt2]
    exact .escape (unescape_iff.mp hc) hx
  | case3 => exact .inl (Outcome.throw.inj h).symm
  | case4 p b hlt hquote hback hlt2 =>
    refine .inr ⟨(Outcome.throw.inj h).symm, [ch 'n'], [0x0A], ?_⟩
    rw [p.rest_eq_cons hlt, hback, (p.next hlt).rest_eq_nil hlt2]
    exact .escape .n .nil
  | case5 p b hlt hquote hback ih =>
    refine (ih h).imp_right fun hbody => ⟨hbody.1, ?_⟩
    obtain ⟨-, t, x, hx⟩ := hbody
    refine ⟨t, p.text[p.pos] :: x, ?_⟩
    rw [p.rest_eq_cons hlt]
    exact .plain hquote hback hx
  | case6 p b hlt =>
    refine .inr ⟨(Outcome.throw.inj h).symm, [], [], ?_⟩
    rw [p.rest_eq_nil hlt]
    exact .nil

theorem explained_parseString {k : Nat} (h : parseString p = .throw e) :
    Explained BeginsString (fun _ => parseString) k p e := by
  rcases bind_eq_throw_iff.mp h with h | ⟨p₁, h1, h⟩
  · refine (explained_expect (k := k) h fun w hw => .of_ws hw).first (d := 0) (fun _ => id)
      (fun n p e he => ?_) (Nat.le_refl k)
    rw [parseString, he, throw_bind]
  obtain ⟨w, hw, hr1⟩ := expect_sound h1
  rcases bind_eq_throw_iff.mp h with h | ⟨r, h2, h⟩
  · obtain rfl | ⟨rfl, t, x, hx⟩ := stringLoop_throw h
    · trivial
    · refine .inr ⟨t ++ [ch '"'], w, _, x, hw, ⟨_, hx, rfl⟩, ?_⟩
      rw [hr1.rest]
      simp
  · obtain ⟨u, b, -, -, -, t, ht⟩ := stringLoop_sound h2
    rcases bind_eq_throw_iff.mp h with h | ⟨p₃, -, h⟩
    · exact absurd h (expect_ne_throw (by decide) ht)
    · exact absurd h (by simp)

/-! ### Numbers -/

theorem optional_throw {test : UInt8 → Bool} (h : optional test p = .throw e) :
    e = .unexpectedEnd ∧ p.rest = [] := by
  rcases bind_eq_throw_iff.mp h with h | ⟨c, hc, h⟩
  · exact peek_throw h
  · split at h
    · rcases bind_eq_throw_iff.mp h with h | ⟨r, -, h⟩
      · exact absurd h (consume_ne_throw hc)
      · exact absurd h (by simp)
    · exact absurd h (by simp)

/-- What is left is bytes of a token, up to the end of the text. -/
def Tokens (p : JsonParser) : Prop := ∀ c ∈ p.rest, tokenByte c = true

theorem Tokens.of_nil (h : p.rest = []) : Tokens p := by
  intro c hc
  rw [h] at hc
  exact absurd hc List.not_mem_nil

theorem Tokens.of_reads {u : Bytes} (h : Reads p u q) (hu : ∀ c ∈ u, tokenByte c = true)
    (hq : Tokens q) : Tokens p := by
  intro c hc
  rw [h.rest] at hc
  exact (List.mem_append.mp hc).elim (hu c) (hq c)

theorem Tokens.of_optional {test : UInt8 → Bool} {b : Bool} (h : optional test p = .ret (b, q))
    (htest : ∀ c, test c = true → tokenByte c = true) (hq : Tokens q) : Tokens p := by
  rcases optional_sound h with ⟨-, c, hc, hr⟩ | ⟨-, rfl⟩
  · exact hq.of_reads hr (List.forall_mem_singleton.mpr (htest c hc))
  · exact hq

theorem Tokens.of_skipDigits (hq : Tokens (p.skipWhile isdigit)) : Tokens p := by
  obtain ⟨ds, hd, hr⟩ := exists_skipDigits p
  exact hq.of_reads hr (tokenByte_digits hd)

theorem parseFraction_throw (h : parseFraction p = .throw e) :
    e = .unexpectedEnd ∧ p.rest = [] := by
  rcases bind_eq_throw_iff.mp h with h | ⟨r, -, h⟩
  · exact optional_throw h
  · exact absurd h (by simp)

theorem parseExponent_throw (h : parseExponent p = .throw e) : e = .unexpectedEnd ∧ Tokens p := by
  rcases bind_eq_throw_iff.mp h with h | ⟨⟨b, p₁⟩, h1, h⟩
  · obtain ⟨rfl, hnil⟩ := optional_throw h
    exact ⟨rfl, .of_nil hnil⟩
  cases b with
  | false => exact absurd h (by simp)
  | true =>
    rcases bind_eq_throw_iff.mp h with h | ⟨r, -, h⟩
    · obtain ⟨rfl, hnil⟩ := optional_throw h
      refine ⟨rfl, Tokens.of_optional h1 (fun c hc => ?_) (.of_nil hnil)⟩
      rcases Bool.or_eq_true_iff.mp hc with hc | hc
      · rw [eq_of_beq hc]; rfl
      · rw [eq_of_beq hc]; rfl
    · exact absurd h (by simp)

theorem scanNumber_throw (h : scanNumber p = .throw e) : e = .unexpectedEnd ∧ Tokens p := by
  rcases bind_eq_throw_iff.mp h with h | ⟨⟨neg, p₁⟩, h1, h⟩
  · obtain ⟨rfl, hnil⟩ := optional_throw h
    exact ⟨rfl, .of_nil hnil⟩
  have hsign : Tokens (p₁.skipWhile isdigit) → Tokens p := fun hq =>
    Tokens.of_optional h1 (fun c hc => by rw [eq_of_beq hc]; rfl) hq.of_skipDigits
  rcases bind_eq_throw_iff.mp h with h | ⟨⟨bf, p₂⟩, h2, h⟩
  · obtain ⟨rfl, hnil⟩ := parseFraction_throw h
    exact ⟨rfl, hsign (.of_nil hnil)⟩
  rcases bind_eq_throw_iff.mp h with h | ⟨r, -, h⟩
  · obtain ⟨rfl, htokens⟩ := parseExponent_throw h
    obtain ⟨fr, hf, hr⟩ := parseFraction_sound h2
    exact ⟨rfl, hsign (htokens.of_reads hr (tokenByte_fraction hf))⟩
  · exact absurd h (by simp)

variable {D : Type} {stod : Bytes → Except ConvError D}

theorem convert_throw {b : Bool} {u : Bytes} (h : convert stod b u = .throw e) :
    ∃ e', e = .stod e' ∨ e = .stoll e' := by
  unfold convert at h
  cases b with
  | true =>
    cases hc : stod u with
    | ok d => exact absurd h (by simp [hc])
    | error e' => exact ⟨e', .inl (by simpa [hc] using h.symm)⟩
  | false =>
    cases hc : Lib.stoll u with
    | ok i => exact absurd h (by simp [hc])
    | error e' => exact ⟨e', .inr (by simpa [hc] using h.symm)⟩

variable {α : Type} {f : Nat → JsonParser → Call α} {k : Nat}

theorem explained_parseNumber (h : parseNumber stod p = .throw e) (hp : p.rest ≠ []) :
    Explained begins f k p e := by
  rcases bind_eq_throw_iff.mp h with h | ⟨⟨b, q⟩, -, h⟩
  · obtain ⟨rfl, htokens⟩ := scanNumber_throw h
    exact .inl (endsInToken_of_rest hp htokens)
  rcases bind_eq_throw_iff.mp h with h | ⟨v, -, h⟩
  · obtain ⟨e', rfl | rfl⟩ : ∃ e', e = .stod e' ∨ e = .stoll e' := convert_throw h
    · trivial
    · trivial
  · exact absurd h (by simp)

theorem literalLoop_throw {literal l : Bytes} (h : literalLoop literal l p = .throw e) :
    e = .expectedLiteral literal := by
  induction l generalizing p with
  | nil => exact absurd h (by simp [literalLoop])
  | cons c l ih =>
    unfold literalLoop at h
    split at h
    · split at h
      · exact ih h
      · exact (Outcome.throw.inj h).symm
    · exact (Outcome.throw.inj h).symm

theorem explained_parseLiteral {literal : Bytes} {value : JsonValue D}
    (h : parseLiteral literal value p = .throw e) : Explained begins f k p e := by
  rcases bind_eq_throw_iff.mp h with h | ⟨q, -, h⟩
  · obtain rfl := literalLoop_throw h
    trivial
  · exact absurd h (by simp)

end Scanner

/-! ## The descent -/

section Descent

variable {D : Type} {stod : Bytes → Except ConvError D}

/-- What the descent throws with `n` units of fuel is explained. -/
structure ExplainedAt (stod : Bytes → Except ConvError D) (n : Nat) : Prop where
  value : ∀ {p e}, parseValueN stod n p = .throw e →
    Explained (BeginsValue stod) (parseValueN stod) 2 p e
  array : ∀ {p e}, parseArrayN stod n p = .throw e →
    Explained (BeginsValue stod) (parseArrayN stod) 1 p e
  items : ∀ {p arr e}, arrayLoopN stod n p arr = .throw e →
    Explained (BeginsItems stod) (fun n p => arrayLoopN stod n p arr) 3 p e
  object : ∀ {p e}, parseObjectN stod n p = .throw e →
    Explained (BeginsValue stod) (parseObjectN stod) 1 p e
  members : ∀ {p obj e}, objectLoopN stod n p obj = .throw e →
    Explained (BeginsMembers stod) (fun n p => objectLoopN stod n p obj) 3 p e

variable {n : Nat} {p q : JsonParser} {e : ParseError} {w : Bytes}

theorem skipWhitespace_of_head {c : UInt8} (hp : p.rest.head? = some c) (hc : isspace c = false) :
    skipWhitespace p = p ∧ peek p = .ret c := by
  obtain ⟨l, hl⟩ := List.head?_eq_some_iff.mp hp
  exact ⟨skipWhitespace_eq Ws.nil (Reads.refl p) (hl ▸ Stops.cons hc), peek_of_rest hl⟩

/-- White space in front of a value. -/
theorem passes_ws (hw : Ws w) {c : UInt8} (hc : isspace c = false) :
    Passes (parseValueN stod) 2 w (parseValueN stod) 2 c := by
  intro n p q hr hq hn
  have hlen := hr.rest_length
  obtain ⟨l, hl⟩ := List.head?_eq_some_iff.mp hq
  refine ⟨n, by omega, fun e he => ?_⟩
  rw [← parseValueN_skip, skipWhitespace_eq hw hr (hl ▸ Stops.cons hc), he]

theorem explained_value (ih : ExplainedAt stod n) (h : parseValueN stod (n + 1) p = .throw e) :
    Explained (BeginsValue stod) (parseValueN stod) 2 p e := by
  obtain ⟨w, hw, hr, hstops⟩ := exists_skipWhitespace p
  rcases bind_eq_throw_iff.mp h with h | ⟨c, hpeek, h⟩
  · obtain ⟨rfl, hnil⟩ := peek_throw h
    exact .inr (.of_ws (ws_of_skip hnil))
  obtain ⟨l, hl⟩ := rest_of_peek hpeek
  have hspace := hstops c l hl
  have hhead : ∀ {d}, (skipWhitespace p).rest.head? = some d → d = c := fun hd => by
    rw [hl] at hd
    exact (Option.some.inj hd).symm
  suffices hinner : Explained (BeginsValue stod) (parseValueN stod) 2 (skipWhitespace p) e from
    hinner.of_reads hr (fun _ => .ws_append hw) fun d hd => passes_ws hw (hhead hd ▸ hspace)
  split at h
  · rename_i hquote
    rcases bind_eq_throw_iff.mp h with h | ⟨r, -, h⟩
    · refine (explained_parseString (k := 1) h).of_reads (Reads.refl _) (fun _ hr => hr.value)
        fun d hd => .of_throw (d := 1) (fun n p e hp he => ?_) (Nat.le_refl 2)
      obtain ⟨hskip, hpeek'⟩ := skipWhitespace_of_head hp (hhead hd ▸ hspace)
      rw [parseValueN, hskip, hpeek', hhead hd]
      simp [hquote, he]
    · exact absurd h (by simp)
  rename_i hquote
  split at h
  · exact explained_parseNumber h (hl ▸ List.cons_ne_nil c l)
  rename_i hnumber
  split at h
  · rename_i hbracket
    refine (ih.array h).of_reads (Reads.refl _) (fun _ => id)
      fun d hd => .of_throw (d := 1) (fun n p e hp he => ?_) (Nat.le_refl 2)
    obtain ⟨hskip, hpeek'⟩ := skipWhitespace_of_head hp (hhead hd ▸ hspace)
    simp only [parseValueN, hskip, hpeek', Outcome.ret_bind, hhead hd, if_neg hquote,
      if_neg hnumber, if_pos hbracket, he]
  rename_i hbracket
  split at h
  · rename_i hbrace
    refine (ih.object h).of_reads (Reads.refl _) (fun _ => id)
      fun d hd => .of_throw (d := 1) (fun n p e hp he => ?_) (Nat.le_refl 2)
    obtain ⟨hskip, hpeek'⟩ := skipWhitespace_of_head hp (hhead hd ▸ hspace)
    simp only [parseValueN, hskip, hpeek', Outcome.ret_bind, hhead hd, if_neg hquote,
      if_neg hnumber, if_neg hbracket, if_pos hbrace, he]
  rename_i hbrace
  split at h
  · exact explained_parseLiteral h
  rename_i htrue
  split at h
  · exact explained_parseLiteral h
  rename_i hfalse
  split at h
  · exact explained_parseLiteral h
  rename_i hnull
  obtain rfl := Outcome.throw.inj h
  have hstart : valueStart c = false := by
    rw [not_or, Bool.not_eq_true] at hnumber
    simp [valueStart, hquote, hnumber, hbracket, hbrace, htrue, hfalse, hnull]
  refine ⟨hstart, [], ⟨l, hl.symm⟩, rfl, hspace, .of_ws Ws.nil, fun n p' hpos hpre hn => ?_⟩
  obtain ⟨n, rfl⟩ : ∃ m, n = m + 1 := ⟨n - 1, by omega⟩
  obtain ⟨t, ht⟩ := hpre
  have hp' : p'.rest.head? = some c := by rw [← ht]; rfl
  obtain ⟨hskip, hpeek'⟩ := skipWhitespace_of_head hp' hspace
  simp only [parseValueN, hskip, hpeek', Outcome.ret_bind, if_neg hquote, if_neg hnumber,
    if_neg hbracket, if_neg hbrace, if_neg htrue, if_neg hfalse, if_neg hnull, hpos]

/-- What brackets throw, over what the loop between them throws. -/
theorem explained_brackets {β : Type} {a b : UInt8} {empty : β} {wrap : β → JsonValue D}
    {begins : Bytes → Prop} {f : Nat → JsonParser → Call (JsonValue D × JsonParser)}
    (loop : Nat → JsonParser → Call (β × JsonParser)) (ha : isspace a = false)
    (hb : isspace b = false)
    (hf : ∀ n p, f (n + 1) p = brackets a b (loop n) empty wrap p)
    (hempty : ∀ w, Ws w → Value stod (a :: w ++ [b]) (wrap empty))
    (hbegins : ∀ w w₁ r, Ws w → Ws w₁ → begins r → BeginsValue stod (w ++ [a] ++ w₁ ++ r))
    (hret : ∀ p₁ items q, loop n p₁ = .ret (items, q) → ∃ s, q.rest = b :: s)
    (hloop : ∀ p₁ e, loop n p₁ = .throw e → Explained begins loop 3 p₁ e)
    (h : f (n + 1) p = .throw e) : Explained (BeginsValue stod) f 1 p e := by
  rw [hf] at h
  rcases bind_eq_throw_iff.mp h with h | ⟨p₁, h1, h⟩
  · refine (explained_expect (k := 0) h fun w hw => .of_ws hw).first (d := 1) (fun _ => id)
      (fun n p e he => ?_) (Nat.le_refl 1)
    rw [hf, brackets, he, throw_bind]
  obtain ⟨w, hw, hr1⟩ := expect_sound h1
  obtain ⟨w₁, hw₁, hr2, hstops⟩ := exists_skipWhitespace p₁
  rcases bind_eq_throw_iff.mp h with h | ⟨c, hpeek, h⟩
  · obtain ⟨rfl, hnil⟩ := peek_throw h
    refine .inr ⟨[b], w, _, _, hw, hempty p₁.rest (ws_of_skip hnil), ?_⟩
    rw [hr1.rest]
    simp
  obtain ⟨l, hl⟩ := rest_of_peek hpeek
  rcases bind_eq_throw_iff.mp h with h | ⟨⟨items, p₂⟩, h2, h⟩
  · split at h
    · rename_i hc
      refine (hloop _ _ h).of_reads (hr1.trans hr2) (fun r => hbegins w w₁ r hw hw₁) fun d hd => ?_
      intro n p' q' hr' hq' hn
      obtain rfl : d = c := by
        rw [hl] at hd
        exact (Option.some.inj hd).symm
      obtain ⟨p₁', hr1', hr2'⟩ := hr'.split
      obtain ⟨l', hl'⟩ := List.head?_eq_some_iff.mp hq'
      have hlen1 := hr1'.rest_length
      have hlen2 := hr2'.rest_length
      rw [List.length_append, List.length_singleton] at hlen1
      have hexpect : expect a p' = .ret p₁' := expect_complete hw ha hr1'
      have hskip : skipWhitespace p₁' = q' :=
        skipWhitespace_eq hw₁ hr2' (hl' ▸ Stops.cons (hstops d l hl))
      obtain ⟨n, rfl⟩ : ∃ m, n = m + 1 := ⟨n - 1, by omega⟩
      refine ⟨n, by omega, fun e he => ?_⟩
      rw [hf, brackets, hexpect, Outcome.ret_bind]
      simp only [hskip, peek_of_rest hl', Outcome.ret_bind, if_pos hc, he, throw_bind]
    · exact absurd h (by simp)
  rcases bind_eq_throw_iff.mp h with h | ⟨p₃, -, h⟩
  · obtain ⟨s, hs⟩ : ∃ s, p₂.rest = b :: s := by
      split at h2
      · exact hret _ _ _ h2
      · rename_i hc
        obtain ⟨rfl, rfl⟩ := Prod.mk.inj (Outcome.ret.inj h2)
        exact ⟨l, not_not.mp hc ▸ hl⟩
    exact absurd h (expect_ne_throw hb hs)
  · exact absurd h (by simp)

theorem explained_array (ih : ExplainedAt stod n) (h : parseArrayN stod (n + 1) p = .throw e) :
    Explained (BeginsValue stod) (parseArrayN stod) 1 p e := by
  refine explained_brackets (fun n p => arrayLoopN stod n p []) (by decide) (by decide)
    parseArrayN_eq (fun w hw => .emptyArray hw) (fun w w₁ r hw hw₁ hr => hr.array hw hw₁)
    (fun p₁ arr q hq => ?_) (fun p₁ e he => ih.items he) h
  obtain ⟨-, -, -, -, -, hs⟩ := (soundAt n).items hq
  exact hs

theorem explained_object (ih : ExplainedAt stod n) (h : parseObjectN stod (n + 1) p = .throw e) :
    Explained (BeginsValue stod) (parseObjectN stod) 1 p e := by
  refine explained_brackets (fun n p => objectLoopN stod n p []) (by decide) (by decide)
    parseObjectN_eq (fun w hw => .emptyObject hw) (fun w w₁ r hw hw₁ hr => hr.object hw hw₁)
    (fun p₁ obj q hq => ?_) (fun p₁ e he => ih.members he) h
  obtain ⟨-, -, -, -, -, hs⟩ := (soundAt n).members hq
  exact hs

theorem explained_items (ih : ExplainedAt stod n) {arr : List (JsonValue D)}
    (h : arrayLoopN stod (n + 1) p arr = .throw e) :
    Explained (BeginsItems stod) (fun n p => arrayLoopN stod n p arr) 3 p e := by
  rcases bind_eq_throw_iff.mp h with h | ⟨⟨v, p₁⟩, h1, h⟩
  · refine (ih.value h).first (d := 1) (fun _ hr => hr.items) (fun n p e he => ?_) (Nat.le_refl 3)
    rw [arrayLoopN, he, throw_bind]
  obtain ⟨w, u, hw, hu, hr1⟩ := (soundAt n).value h1
  obtain ⟨w', hw', hr2, -⟩ := exists_skipWhitespace p₁
  rcases bind_eq_throw_iff.mp h with h | ⟨c, hpeek, h⟩
  · obtain ⟨rfl, hnil⟩ := peek_throw h
    refine .inr ?_
    rw [hr1.rest]
    exact .of_item hw hu (ws_of_skip hnil)
  split at h
  · rename_i hc
    rcases bind_eq_throw_iff.mp h with h | ⟨⟨c', p₂⟩, h2, h⟩
    · exact absurd h (consume_ne_throw hpeek)
    have hread := (hr1.trans hr2).trans (hc ▸ reads_of_peek hpeek h2)
    refine (ih.items h).of_reads hread (fun r hr => hr.cons hw hu hw') fun d _ => ?_
    intro m p' q' hr' _ hm
    obtain ⟨m, rfl⟩ : ∃ l, m = l + 1 := ⟨m - 1, by omega⟩
    have hlen := hr'.rest_length
    rw [List.length_append, List.length_singleton] at hlen
    refine ⟨m, by omega, fun e he => ?_⟩
    exact (arrayLoopN_cons hw hw' (parsesValue hu).parsesValue hr' (by omega) arr).trans he
  · split at h
    · exact absurd h (by simp)
    · obtain rfl := Outcome.throw.inj h
      trivial

theorem explained_members (ih : ExplainedAt stod n) {obj : List (Bytes × JsonValue D)}
    (h : objectLoopN stod (n + 1) p obj = .throw e) :
    Explained (BeginsMembers stod) (fun n p => objectLoopN stod n p obj) 3 p e := by
  rcases bind_eq_throw_iff.mp h with h | ⟨⟨k, p₁⟩, h1, h⟩
  · refine (explained_parseString (k := 2) h).first (d := 1) (fun _ hr => hr.members)
      (fun n p e he => ?_) (Nat.le_refl 3)
    rw [objectLoopN, he, throw_bind]
  obtain ⟨w, lit, hw, hlit, hr1⟩ := parseString_sound h1
  rcases bind_eq_throw_iff.mp h with h | ⟨p₂, h2, h⟩
  · have hcolon : Explained Ws (fun _ => expect (ch ':')) 2 p₁ e := explained_expect h fun _ => id
    refine hcolon.of_reads hr1 (fun w₁ hw₁ => .of_key hw hlit hw₁) fun d _ => ?_
    intro m p' q' hr' _ hm
    obtain ⟨m, rfl⟩ : ∃ l, m = l + 1 := ⟨m - 1, by omega⟩
    have hlen := hr'.rest_length
    have hkey : parseString p' = .ret (k, q') := parseString_complete hw hlit hr'
    refine ⟨m, by omega, fun e he => ?_⟩
    simp only [objectLoopN, hkey, Outcome.ret_bind, he, throw_bind]
  obtain ⟨w₁, hw₁, hr2⟩ := expect_sound h2
  have hread := hr1.trans hr2
  rw [← List.append_assoc] at hread
  rcases bind_eq_throw_iff.mp h with h | ⟨⟨v, p₃⟩, h3, h⟩
  · refine (ih.value h).of_reads hread (fun r hr => hr.member hw hlit hw₁) fun d _ => ?_
    intro m p' q' hr' _ hm
    obtain ⟨m, rfl⟩ : ∃ l, m = l + 1 := ⟨m - 1, by omega⟩
    have hlen := hr'.rest_length
    refine ⟨m, by omega, fun e he => ?_⟩
    simp only [objectLoopN_key hw hlit hw₁ hr', he, throw_bind]
  obtain ⟨w₂, u, hw₂, hu, hr3⟩ := (soundAt n).value h3
  obtain ⟨w', hw', hr4, -⟩ := exists_skipWhitespace p₃
  rcases bind_eq_throw_iff.mp h with h | ⟨c, hpeek, h⟩
  · obtain ⟨rfl, hnil⟩ := peek_throw h
    refine .inr ?_
    rw [(hread.trans hr3).rest]
    simpa using BeginsMembers.of_member hw hlit hw₁ hw₂ hu (ws_of_skip hnil)
  split at h
  · rename_i hc
    rcases bind_eq_throw_iff.mp h with h | ⟨⟨c', p₄⟩, h5, h⟩
    · exact absurd h (consume_ne_throw hpeek)
    have hall := hread.trans ((hr3.trans hr4).trans (hc ▸ reads_of_peek hpeek h5))
    refine (ih.members h).of_reads hall (fun r hr => ?_) fun d _ => ?_
    · simpa using hr.cons hw hlit hw₁ hw₂ hu hw'
    intro m p' q' hr' _ hm
    obtain ⟨m, rfl⟩ : ∃ l, m = l + 1 := ⟨m - 1, by omega⟩
    have hlen := hr'.rest_length
    simp only [List.length_append, List.length_singleton] at hlen
    refine ⟨m, by omega, fun e he => ?_⟩
    exact (objectLoopN_cons hw hlit hw₁ hw₂ hw' (parsesValue hu).parsesValue hr' (by omega)
      obj).trans he
  · split at h
    · exact absurd h (by simp)
    · obtain rfl := Outcome.throw.inj h
      trivial

/-- **Every exception of the descent is explained.** -/
theorem explainedAt : ∀ n, ExplainedAt stod n
  | 0 => by
    refine ⟨?_, ?_, ?_, ?_, ?_⟩ <;> intros <;> rename_i h <;>
      simp [parseValueN, parseArrayN, arrayLoopN, parseObjectN, objectLoopN] at h
  | n + 1 =>
    have ih := explainedAt n
    ⟨explained_value ih, explained_array ih, explained_items ih, explained_object ih,
      explained_members ih⟩

end Descent

/-! ## Exceptions of `parse` -/

section Parse

variable {D : Type} {stod : Bytes → Except ConvError D} {s : Bytes} {e : ParseError}

/-- Where `parse` threw: in the value, or behind it. -/
theorem parse_throw_cases (h : parse stod s = .throw e) :
    parseValue stod (Cursor.start s) = .throw e ∨
      ∃ v q, parseValue stod (Cursor.start s) = .ret (v, q) ∧ (skipWhitespace q).rest ≠ [] ∧
        e = .extraCharacters (skipWhitespace q).pos := by
  cases hv : parseValue stod (Cursor.start s) with
  | timeout => exact absurd hv (parseValue_ne_timeout _)
  | throw e' =>
    rw [parse, hv] at h
    exact .inl (congrArg _ (Outcome.throw.inj h))
  | ret r =>
    refine .inr ⟨r.1, r.2, rfl, ?_⟩
    rw [parse_of_value hv] at h
    split at h
    · exact absurd h (by simp)
    · rename_i hrest
      exact ⟨hrest, (Outcome.throw.inj h).symm⟩

/-- What `parse_value` threw. -/
theorem explained_parseValue (h : parseValue stod (Cursor.start s) = .throw e) :
    Explained (BeginsValue stod) (parseValueN stod) 2 (Cursor.start s) e :=
  (explainedAt _).value h

/-- A text that ended too early is the beginning of a document. -/
theorem parse_completes (h : parse stod s = .throw .unexpectedEnd) (hs : endsInToken s = false) :
    BeginsDocument stod s := by
  obtain hv | ⟨v, q, hv, hrest, hextra⟩ := parse_throw_cases h
  · rcases explained_parseValue hv with htoken | hbegins
    · exact absurd (hs.symm.trans htoken) Bool.false_ne_true
    · exact hbegins.document
  · exact absurd hextra (by simp)

/-- **"Unexpected end of input" is what it says**: it is thrown exactly for the texts that are not
documents but can be completed to one, where the text does not end in a byte of a number or of a
literal. -/
theorem parse_unexpectedEnd_iff (stod : Bytes → Except ConvError D) (hs : endsInToken s = false) :
    parse stod s = .throw .unexpectedEnd ↔
      (∀ v, parse stod s ≠ .ret v) ∧ ∃ t v, parse stod (s ++ t) = .ret v := by
  constructor
  · intro h
    exact ⟨fun v hv => absurd (h.symm.trans hv) (by simp), parse_completes h hs⟩
  · rintro ⟨hno, t, v, hv⟩
    cases h : parse stod s with
    | ret v' => exact absurd h (hno v')
    | timeout => exact absurd h (parse_ne_timeout s)
    | throw e =>
      -- an exception that is not late would be thrown for `s ++ t`, too
      by_cases hlate : Late stod s e
      · by_contra hne
        have htoken := hlate.endsInToken fun he => hne (congrArg _ he)
        exact absurd (hs.symm.trans htoken) Bool.false_ne_true
      · rw [throw_append h (mt LateIn.document hlate) t] at hv
        exact absurd hv (by simp)

/-- An opening bracket alone. -/
theorem parse_unexpectedEnd_iff_bracket :
    endsInToken (ascii "[") = false ∧
      (parse (fun _ => .error .invalidArgument : Bytes → Except ConvError Unit) (ascii "[") =
          .throw .unexpectedEnd ↔
        (∀ v, parse (fun _ => .error .invalidArgument : Bytes → Except ConvError Unit)
          (ascii "[") ≠ .ret v) ∧
        ∃ t v, parse (fun _ => .error .invalidArgument : Bytes → Except ConvError Unit)
          (ascii "[" ++ t) = .ret v) :=
  ⟨rfl, parse_unexpectedEnd_iff _ rfl⟩

/-- The byte `c` at `pos` is the first that does not fit: it is no white space, the text in front of
it begins a document, and with it `e` is thrown whatever stands behind it. -/
def FirstMisfit (stod : Bytes → Except ConvError D) (s : Bytes) (c : UInt8) (pos : Nat)
    (e : ParseError) : Prop :=
  s[pos]? = some c ∧ isspace c = false ∧ BeginsDocument stod (s.take pos) ∧
    ∀ t, parse stod (s.take (pos + 1) ++ t) = .throw e

/-- What a position in a message says. -/
def Located (stod : Bytes → Except ConvError D) (s : Bytes) (e : ParseError) : Prop :=
  match e with
  | .expected c got pos => got ≠ c ∧ FirstMisfit stod s got pos e
  | .unexpectedCharacter c pos => valueStart c = false ∧ FirstMisfit stod s c pos e
  | .extraCharacters pos =>
    (∃ c, s[pos]? = some c ∧ isspace c = false) ∧ ∃ v, Text stod (s.take pos) v
  | _ => True

theorem Misfit.first {c : UInt8} {pos : Nat}
    (h : Misfit (BeginsValue stod) (parseValueN stod) 2 (Cursor.start s) c pos e) :
    FirstMisfit stod s c pos e := by
  obtain ⟨a, ⟨r, hr⟩, hpos, hspace, hbegins, hdecides⟩ := h
  obtain rfl : a ++ [c] ++ r = s := hr
  obtain rfl : pos = a.length := hpos.trans (Nat.zero_add _)
  have htake : (a ++ [c] ++ r).take a.length = a := by
    rw [List.append_assoc, List.take_left]
  have htake' : (a ++ [c] ++ r).take (a.length + 1) = a ++ [c] :=
    List.take_left' (by rw [List.length_append, List.length_singleton])
  refine ⟨by simp, hspace, htake.symm ▸ hbegins.document, fun t => ?_⟩
  have hthrow : parseValue stod (Cursor.start (a ++ [c] ++ t)) = .throw e :=
    hdecides _ _ rfl ⟨t, rfl⟩ (by unfold fuel; omega)
  rw [htake', parse, hthrow, throw_bind]

/-- **The position in a message is that of the byte it names**, and that byte is the first that
does not fit: what stands in front of it can be completed to a document, and with the byte nothing
can. -/
theorem parse_located (h : parse stod s = .throw e) : Located stod s e := by
  rcases parse_throw_cases h with hv | ⟨v, q, hv, hrest, rfl⟩
  · have hexplained := explained_parseValue hv
    cases e with
    | expected c got pos => exact ⟨hexplained.1, hexplained.2.first⟩
    | unexpectedCharacter c pos => exact ⟨hexplained.1, hexplained.2.first⟩
    | extraCharacters pos => exact hexplained.elim
    | _ => trivial
  · obtain ⟨w, u, hw, hu, hr⟩ := (soundAt _).value hv
    obtain ⟨w', hw', hr', hstops⟩ := exists_skipWhitespace q
    have hread := hr.trans hr'
    obtain ⟨c, l, hl⟩ := List.exists_cons_of_ne_nil hrest
    have hs : s = w ++ u ++ w' ++ c :: l := hl ▸ hread.rest
    have hlen : (skipWhitespace q).pos = (w ++ u ++ w').length := by
      rw [hread.pos]
      exact Nat.zero_add _
    rw [hlen, hs]
    refine ⟨⟨c, ?_, hstops c l hl⟩, v, w, u, w', hw, hu, hw', List.take_left⟩
    rw [List.getElem?_append_right (Nat.le_refl _), Nat.sub_self, List.getElem?_cons_zero]

/-- The first byte is no beginning of a value. -/
theorem parse_question (stod : Bytes → Except ConvError D) :
    parse stod [ch '?'] = .throw (.unexpectedCharacter (ch '?') 0) := by
  have hskip : skipWhitespace (Cursor.start [ch '?']) = Cursor.start [ch '?'] :=
    skipWhitespace_eq Ws.nil (Reads.refl _) (Stops.cons rfl)
  rw [parse, parseValue, fuel, parseValueN, hskip, peek_of_rest rfl]
  rfl

/-- The byte at position 0 of `?`. -/
theorem parse_located_question :
    Located (fun _ => .error .invalidArgument : Bytes → Except ConvError Unit) [ch '?']
      (.unexpectedCharacter (ch '?') 0) :=
  parse_located (parse_question _)

end Parse

end CppExamples.Json
