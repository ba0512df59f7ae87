import CppExamples.Json.Raw

/-!
# The parser stays in bounds and ends

* `models_…`: with enough fuel for the loops, the raw parser ends as the checked parser of
  `Json/Parser.lean` does, at the same position. So the bound that the checked parser carries in
  its type costs nothing, and what is known of it (it ends, a value takes at least one byte) holds
  of the raw parser.
* `parser_bounded`: on every input, every member function ends, reads inside the text only and
  moves `pos` upwards only, from every position in the text.
-/

namespace CppExamples.Json.Raw

open Lib Lib.Walk

/-! ## The checked parser -/

section Checked

variable {mem : Nat → UInt8} {text : Bytes} (hmem : ∀ i (h : i < text.length), mem i = text[i])
  {c : JsonParser} (hc : c.text = text)

/-- A function of the checked parser that returns the parser only. -/
abbrev position (d : JsonParser) : Unit × JsonParser := ((), d)

/-- A function of the checked parser that leaves the parser as it is. -/
abbrev value {β : Type} (c : JsonParser) (b : β) : β × JsonParser := (b, c)

include hmem hc

theorem models_read (hlt : c.pos < c.text.length) :
    Models (value c) c (read mem : Prog UInt8) (.ret c.text[c.pos]) := by
  subst hc
  refine ⟨?_, fun _ _ => rfl⟩
  change Outcome.ret (mem c.pos, c.pos) = _
  rw [hmem c.pos hlt]
  rfl

theorem models_peek_lt (hlt : c.pos < c.text.length) :
    Models (value c) c (peek mem text.length) (.ret c.text[c.pos]) := by
  refine .pos_bind ?_
  rw [if_neg (Nat.not_le.mpr (hc ▸ hlt))]
  exact models_read hmem hc hlt

omit hmem in
theorem models_peek_end (hend : ¬ c.pos < c.text.length) :
    Models (value c) c (peek mem text.length) (.throw .unexpectedEnd) := by
  refine .pos_bind ?_
  rw [if_pos (Nat.not_lt.mp (hc ▸ hend))]
  exact .throw _

theorem models_peek : Models (value c) c (peek mem text.length) (Json.peek c) := by
  unfold Json.peek
  split
  · exact models_peek_lt hmem hc ‹_›
  · exact models_peek_end hc ‹_›

theorem models_consume : Models id c (consume mem text.length) (Json.consume c) := by
  refine .pos_bind ?_
  unfold Json.consume
  by_cases hlt : c.pos < c.text.length
  · rw [dif_pos hlt, if_neg (Nat.not_le.mpr (hc ▸ hlt))]
    exact (models_read hmem hc hlt).ret_bind (.advance_bind hlt (.ret rfl))
  · rw [dif_neg hlt, if_pos (Nat.not_lt.mp (hc ▸ hlt))]
    exact .throw _

omit hmem in
theorem models_consume_end (hend : ¬ c.pos < c.text.length) :
    Models id c (consume mem text.length) (.throw .unexpectedEnd) := by
  refine .pos_bind ?_
  rw [if_pos (Nat.not_lt.mp (hc ▸ hend))]
  exact .throw _

theorem models_consume_lt (hlt : c.pos < c.text.length) :
    Models id c (consume mem text.length) (.ret (c.text[c.pos], c.next hlt)) := by
  have h := models_consume hmem hc
  rwa [Json.consume, dif_pos hlt] at h

theorem models_skipWhitespace {n : Nat} (hn : c.rest.length < n) :
    Models position c (skipWhitespace mem text.length n) (.ret (Json.skipWhitespace c)) := by
  induction n generalizing c with
  | zero => omega
  | succ n ih =>
    refine .pos_bind ?_
    rw [Json.skipWhitespace, Cursor.skipWhile]
    by_cases hlt : c.pos < c.text.length
    · rw [if_pos (hc ▸ hlt), dif_pos hlt]
      refine (models_read hmem hc hlt).ret_bind ?_
      by_cases hspace : isspace c.text[c.pos] = true
      · rw [if_pos hspace, if_pos hspace]
        rw [c.rest_eq_cons hlt, List.length_cons] at hn
        exact .advance_bind hlt (ih hc (Nat.lt_of_succ_lt_succ hn))
      · rw [if_neg hspace, if_neg hspace]
        exact .ret rfl
    · rw [if_neg (hc ▸ hlt), dif_neg hlt]
      exact .ret rfl

theorem models_digits {n : Nat} (hn : c.rest.length < n) :
    Models position c (digits mem text.length n) (.ret (c.skipWhile isdigit)) := by
  induction n generalizing c with
  | zero => omega
  | succ n ih =>
    refine .pos_bind ?_
    rw [Cursor.skipWhile]
    by_cases hlt : c.pos < c.text.length
    · rw [if_pos (hc ▸ hlt), dif_pos hlt]
      refine (models_read hmem hc hlt).ret_bind ?_
      by_cases hdigit : isdigit c.text[c.pos] = true
      · rw [if_pos hdigit, if_pos hdigit]
        rw [c.rest_eq_cons hlt, List.length_cons] at hn
        exact (models_consume_lt hmem hc hlt).ret_bind (ih hc (Nat.lt_of_succ_lt_succ hn))
      · rw [if_neg hdigit, if_neg hdigit]
        exact .ret rfl
    · rw [if_neg (hc ▸ hlt), dif_neg hlt]
      exact .ret rfl

theorem models_expect {n : Nat} (hn : c.rest.length < n) (b : UInt8) :
    Models position c (expect mem text.length n b) (Json.expect b c) := by
  have hskip := models_skipWhitespace hmem hc hn
  refine hskip.ret_bind ?_
  have hc' : (Json.skipWhitespace c).text = text := (hskip.text _ rfl).trans hc
  refine (models_peek hmem hc').bind fun got hgot _ => .ite (fun _ => ?_) fun _ => ?_
  · exact (models_consume hmem hc').bind fun r _ _ => .ret rfl
  · -- the second `peek()` sees what the first saw
    exact (hgot ▸ models_peek hmem hc').ret_bind (.pos_bind (.throw _))

theorem models_stringLoop {n : Nat} (hn : c.rest.length < n) (s : Bytes) :
    Models id c (stringLoop mem text.length n s) (Json.stringLoop c s) := by
  induction n generalizing c s with
  | zero => omega
  | succ n ih =>
    rw [Json.stringLoop]
    by_cases hlt : c.pos < c.text.length
    · rw [dif_pos hlt]
      rw [c.rest_eq_cons hlt, List.length_cons] at hn
      have hn' : (c.next hlt).rest.length < n := Nat.lt_of_succ_lt_succ hn
      have hnext : (c.next hlt).text = text := hc
      refine (models_peek_lt hmem hc hlt).ret_bind (.ite (fun _ => .ret rfl) fun _ => ?_)
      refine (models_consume_lt hmem hc hlt).ret_bind (.ite (fun _ => ?_) fun _ => ih hnext hn' _)
      by_cases hlt' : (c.next hlt).pos < (c.next hlt).text.length
      · rw [dif_pos hlt']
        refine (models_consume_lt hmem hnext hlt').ret_bind ?_
        rw [(c.next hlt).rest_eq_cons hlt', List.length_cons] at hn'
        simp only [id_eq]
        cases unescape (c.next hlt).text[(c.next hlt).pos] with
        | some e =>
          have hnext' : ((c.next hlt).next hlt').text = text := hc
          exact ih hnext' (Nat.lt_of_succ_lt hn') _
        | none => exact .throw _
      · rw [dif_neg hlt']
        exact (models_consume_end hnext hlt').throw_bind
    · rw [dif_neg hlt]
      exact (models_peek_end hc hlt).throw_bind

theorem models_peekAny_lt (hlt : c.pos < c.text.length) (cs : List UInt8) :
    Models (value c) c (peekAny mem text.length cs) (.ret (cs.any (c.text[c.pos] == ·))) := by
  induction cs with
  | nil => exact .ret rfl
  | cons a cs ih =>
    refine (models_peek_lt hmem hc hlt).ret_bind ?_
    by_cases ha : c.text[c.pos] = a
    · rw [if_pos ha, List.any_cons, ha, beq_self_eq_true, Bool.true_or]
      exact .ret rfl
    · rw [if_neg ha, List.any_cons, beq_eq_false_iff_ne.mpr ha, Bool.false_or]
      exact ih

omit hmem in
theorem models_peekAny_end (hend : ¬ c.pos < c.text.length) (a : UInt8) (cs : List UInt8) :
    Models (value c) c (peekAny mem text.length (a :: cs)) (.throw .unexpectedEnd) :=
  (models_peek_end hc hend).throw_bind

theorem models_optional {test : UInt8 → Bool} {a : UInt8} {cs : List UInt8}
    (htest : ∀ b, test b = (a :: cs).any (b == ·)) :
    Models id c (optional mem text.length (a :: cs)) (Json.optional test c) := by
  unfold Json.optional Json.peek
  by_cases hlt : c.pos < c.text.length
  · rw [dif_pos hlt, Outcome.ret_bind, htest]
    refine (models_peekAny_lt hmem hc hlt _).ret_bind (.ite (fun _ => ?_) fun _ => .ret rfl)
    exact (models_consume hmem hc).bind fun r _ _ => .ret rfl
  · rw [dif_neg hlt]
    exact (models_peekAny_end hc hlt _ _).throw_bind

/-- Two tests of the same byte, and an exception if both fail. -/
theorem models_switch {β δ : Type} {k : δ → β × JsonParser} {a b : UInt8} {m₁ m₂ : Prog β}
    {o₁ o₂ : Call δ} {e : ParseError} (h₁ : Models k c m₁ o₁) (h₂ : Models k c m₂ o₂) :
    Models k c
      (peekAny mem text.length [a] >>= fun x => if x = true then m₁ else
        peekAny mem text.length [b] >>= fun y => if y = true then m₂ else .throw e)
      (Json.peek c >>= fun x => if x = a then o₁ else if x = b then o₂ else .throw e) := by
  unfold Json.peek
  by_cases hlt : c.pos < c.text.length
  · rw [dif_pos hlt, Outcome.ret_bind]
    refine (models_peekAny_lt hmem hc hlt _).ret_bind ?_
    simp only [List.any_cons, List.any_nil, Bool.or_false, beq_iff_eq]
    refine .ite (fun _ => h₁) fun _ => (models_peekAny_lt hmem hc hlt _).ret_bind ?_
    simp only [List.any_cons, List.any_nil, Bool.or_false, beq_iff_eq]
    exact .ite (fun _ => h₂) fun _ => .throw _
  · rw [dif_neg hlt]
    exact (models_peekAny_end hc hlt _ _).throw_bind

theorem models_literalLoop (literal l : Bytes) :
    Models position c (literalLoop mem text.length literal l) (Json.literalLoop literal l c) := by
  induction l generalizing c with
  | nil => exact .ret rfl
  | cons b l ih =>
    refine .pos_bind ?_
    unfold Json.literalLoop
    by_cases hlt : c.pos < c.text.length
    · rw [if_neg (Nat.not_le.mpr (hc ▸ hlt)), dif_pos hlt]
      refine (models_read hmem hc hlt).ret_bind ?_
      by_cases hb : c.text[c.pos] = b
      · rw [if_neg (not_not.mpr hb), if_pos hb]
        exact .advance_bind hlt (ih hc)
      · rw [if_pos hb, if_neg hb]
        exact .throw _
    · rw [if_pos (Nat.not_lt.mp (hc ▸ hlt)), dif_neg hlt]
      exact .throw _

omit hmem in
/-- The fuel of the loops is more than is left of the text anywhere. -/
theorem rest_lt {n : Nat} (hn : text.length < n) : c.rest.length < n := by
  rw [c.rest_length, hc]
  omega

variable {n : Nat} (hn : text.length < n)

include hn

theorem models_parseString : Models id c (parseString mem text.length n) (Json.parseString c) := by
  refine (models_expect hmem hc (rest_lt hc hn) _).bind fun d _ hd => ?_
  have hd := hd.trans hc
  refine (models_stringLoop hmem hd (rest_lt hd hn) []).bind fun r _ hr => ?_
  have hr := hr.trans hd
  exact (models_expect hmem hr (rest_lt hr hn) _).bind fun d _ _ => .ret rfl

theorem models_parseFraction :
    Models id c (parseFraction mem text.length n) (Json.parseFraction c) := by
  refine (models_optional hmem hc fun b => by simp).bind fun ⟨b, d⟩ _ htext => ?_
  have hd : d.text = text := htext.trans hc
  cases b with
  | true => exact (models_digits hmem hd (rest_lt hd hn)).ret_bind (.ret rfl)
  | false => exact .ret rfl

theorem models_parseExponent :
    Models id c (parseExponent mem text.length n) (Json.parseExponent c) := by
  refine (models_optional hmem hc fun b => by simp).bind fun ⟨b, d⟩ _ htext => ?_
  have hd : d.text = text := htext.trans hc
  cases b with
  | true =>
    refine (models_optional hmem hd fun b => by simp).bind fun ⟨_, d'⟩ _ htext' => ?_
    have hd' : d'.text = text := htext'.trans hd
    exact (models_digits hmem hd' (rest_lt hd' hn)).ret_bind (.ret rfl)
  | false => exact .ret rfl

theorem models_scanNumber : Models id c (scanNumber mem text.length n) (Json.scanNumber c) := by
  refine (models_optional hmem hc fun b => by simp).bind fun ⟨_, d⟩ _ htext => ?_
  have hd : d.text = text := htext.trans hc
  have hskip := models_digits hmem hd (rest_lt hd hn)
  have hd' : (d.skipWhile isdigit).text = text := (hskip.text _ rfl).trans hd
  refine hskip.ret_bind ((models_parseFraction hmem hd' hn).bind fun r _ hr => ?_)
  have hr := hr.trans hd'
  exact (models_parseExponent hmem hr hn).bind fun r' _ _ => .ret rfl

omit hn in
/-- `json_str.substr(start_pos, pos - start_pos)`, read byte by byte. -/
theorem slice_eq {q : JsonParser} (hq : q.text = c.text) :
    (List.range' c.pos (q.pos - c.pos)).map mem = substr c q := by
  subst hc
  have hle := q.pos_le
  rw [hq] at hle
  unfold substr Cursor.rest
  refine List.ext_getElem (by simp; omega) fun i h₁ h₂ => ?_
  rw [List.length_map, List.length_range'] at h₁
  rw [List.getElem_map, List.getElem_range', List.getElem_take, List.getElem_drop, Nat.one_mul]
  exact hmem (c.pos + i) (by omega)

theorem models_parseNumber {D : Type} (stod : Bytes → Except ConvError D) :
    Models id c (parseNumber mem text.length stod n) (Json.parseNumber stod c) := by
  refine .pos_bind ((models_scanNumber hmem hc hn).bind fun r _ hr => .pos_bind (.slice_bind ?_))
  change Models id r.2 (Walk.lift (convert stod r.1 _)) (convert stod r.1 (substr c r.2) >>= _)
  rw [slice_eq hmem hc hr]
  exact (Models.lift _ r.2).returned

variable {D : Type} {stod : Bytes → Except ConvError D}

omit hmem hc hn

/-- The descent does what the checked one does, with `k` units of fuel for both. -/
structure ModelsAt (mem : Nat → UInt8) (text : Bytes) (stod : Bytes → Except ConvError D)
    (n k : Nat) : Prop where
  value : ∀ c : JsonParser, c.text = text →
    Models id c (parseValueN mem text.length stod n k) (Json.parseValueN stod k c)
  array : ∀ c : JsonParser, c.text = text →
    Models id c (parseArrayN mem text.length stod n k) (Json.parseArrayN stod k c)
  items : ∀ c : JsonParser, c.text = text → ∀ arr,
    Models id c (arrayLoopN mem text.length stod n k arr) (Json.arrayLoopN stod k c arr)
  object : ∀ c : JsonParser, c.text = text →
    Models id c (parseObjectN mem text.length stod n k) (Json.parseObjectN stod k c)
  members : ∀ c : JsonParser, c.text = text → ∀ obj,
    Models id c (objectLoopN mem text.length stod n k obj) (Json.objectLoopN stod k c obj)

variable {k : Nat} (ih : ModelsAt mem text stod n k)

include hmem hc hn ih

theorem models_value :
    Models id c (parseValueN mem text.length stod n (k + 1)) (Json.parseValueN stod (k + 1) c) := by
  have hskip := models_skipWhitespace hmem hc (rest_lt hc hn)
  have hd : (Json.skipWhitespace c).text = text := (hskip.text _ rfl).trans hc
  have hliteral : ∀ (l : Bytes) (v : JsonValue D),
      Models id (Json.skipWhitespace c) (parseLiteral mem text.length l v)
        (Json.parseLiteral l v (Json.skipWhitespace c)) := fun l v =>
    (models_literalLoop hmem hd l l).bind fun _ _ _ => .ret rfl
  refine hskip.ret_bind ((models_peek hmem hd).bind fun b _ _ => ?_)
  refine .ite (fun _ => ?_) fun _ => .ite (fun _ => models_parseNumber hmem hd hn stod) fun _ =>
    .ite (fun _ => ih.array _ hd) fun _ => .ite (fun _ => ih.object _ hd) fun _ =>
      .ite (fun _ => hliteral _ _) fun _ => .ite (fun _ => hliteral _ _) fun _ =>
        .ite (fun _ => hliteral _ _) fun _ => .pos_bind (.throw _)
  exact (models_parseString hmem hd hn).bind fun _ _ _ => .ret rfl

omit ih in
theorem models_brackets {β : Type} {a b : UInt8} {loop : Prog β}
    {loop' : JsonParser → Call (β × JsonParser)} {empty : β} {wrap : β → JsonValue D}
    (h : ∀ p : JsonParser, p.text = text → Models id p loop (loop' p)) :
    Models id c (brackets mem text.length n a b loop empty wrap)
      (Json.brackets a b loop' empty wrap c) := by
  refine (models_expect hmem hc (rest_lt hc hn) _).bind fun p _ hp => ?_
  have hp : p.text = text := hp.trans hc
  have hskip := models_skipWhitespace hmem hp (rest_lt hp hn)
  have hd : (Json.skipWhitespace p).text = text := (hskip.text _ rfl).trans hp
  refine hskip.ret_bind ((models_peek hmem hd).bind fun b _ _ => ?_)
  refine Models.bind (.ite (fun _ => h _ hd) fun _ => .ret rfl) fun r _ hr => ?_
  have hr := hr.trans hd
  exact (models_expect hmem hr (rest_lt hr hn) _).bind fun _ _ _ => .ret rfl

theorem models_array :
    Models id c (parseArrayN mem text.length stod n (k + 1)) (Json.parseArrayN stod (k + 1) c) := by
  rw [parseArrayN_eq, Json.parseArrayN_eq]
  exact models_brackets hmem hc hn fun p hp => ih.items p hp []

theorem models_items (arr : List (JsonValue D)) :
    Models id c (arrayLoopN mem text.length stod n (k + 1) arr)
      (Json.arrayLoopN stod (k + 1) c arr) := by
  refine (ih.value c hc).bind fun ⟨v, p⟩ _ hp => ?_
  have hp : p.text = text := hp.trans hc
  have hskip := models_skipWhitespace hmem hp (rest_lt hp hn)
  have hd : (Json.skipWhitespace p).text = text := (hskip.text _ rfl).trans hp
  refine hskip.ret_bind (models_switch hmem hd ?_ (.ret rfl))
  refine (models_consume hmem hd).bind fun r _ hr => ?_
  exact ih.items r.2 (hr.trans hd) _

theorem models_object :
    Models id c (parseObjectN mem text.length stod n (k + 1))
      (Json.parseObjectN stod (k + 1) c) := by
  rw [parseObjectN_eq, Json.parseObjectN_eq]
  exact models_brackets hmem hc hn fun p hp => ih.members p hp []

theorem models_members (obj : List (Bytes × JsonValue D)) :
    Models id c (objectLoopN mem text.length stod n (k + 1) obj)
      (Json.objectLoopN stod (k + 1) c obj) := by
  refine (models_parseString hmem hc hn).bind fun ⟨key, p₁⟩ _ hp₁ => ?_
  have hp₁ : p₁.text = text := hp₁.trans hc
  refine (models_expect hmem hp₁ (rest_lt hp₁ hn) _).bind fun p₂ _ hp₂ => ?_
  have hp₂ : p₂.text = text := hp₂.trans hp₁
  refine (ih.value p₂ hp₂).bind fun ⟨v, p⟩ _ hp => ?_
  have hp : p.text = text := hp.trans hp₂
  have hskip := models_skipWhitespace hmem hp (rest_lt hp hn)
  have hd : (Json.skipWhitespace p).text = text := (hskip.text _ rfl).trans hp
  refine hskip.ret_bind (models_switch hmem hd ?_ (.ret rfl))
  refine (models_consume hmem hd).bind fun r _ hr => ?_
  exact ih.members r.2 (hr.trans hd) _

omit hc ih

/-- **The raw descent does what the checked one does.** -/
theorem modelsAt : ∀ k, ModelsAt mem text stod n k
  | 0 => ⟨fun _ _ => .timeout, fun _ _ => .timeout, fun _ _ _ => .timeout, fun _ _ => .timeout,
      fun _ _ _ => .timeout⟩
  | k + 1 =>
    have ih := modelsAt k
    ⟨fun _ hc => models_value hmem hc hn ih, fun _ hc => models_array hmem hc hn ih,
      fun _ hc => models_items hmem hc hn ih, fun _ hc => models_object hmem hc hn ih,
      fun _ hc => models_members hmem hc hn ih⟩

end Checked

/-! ## Every call -/

/-- A call from the position `pos` ends with a value or an exception; every `json_str[pos]` it
reads is in the text; its positions are in the text and go upwards. -/
structure InBounds {β : Type} (len pos : Nat) (m : Prog β) : Prop where
  ends : (m pos).2 ≠ .timeout
  reads : ∀ i, .read i ∈ (m pos).1 → i < len
  positions : ∀ i ∈ Walk.positions pos (m pos).1, i ≤ len
  upwards : (Walk.positions pos (m pos).1).Pairwise (· ≤ ·)
  returns : ∀ b q, (m pos).2 = .ret (b, q) → pos ≤ q ∧ q ≤ len

/-- All member functions, called at the position `pos`. -/
structure Bounded {D : Type} (mem : Nat → UInt8) (len : Nat) (stod : Bytes → Except ConvError D)
    (n pos : Nat) : Prop where
  skipWhitespace : InBounds len pos (skipWhitespace mem len n)
  peek : InBounds len pos (peek mem len)
  consume : InBounds len pos (consume mem len)
  expect : ∀ c, InBounds len pos (expect mem len n c)
  parseString : InBounds len pos (parseString mem len n)
  parseNumber : InBounds len pos (parseNumber mem len stod n)
  parseLiteral : ∀ (l : Bytes) (v : JsonValue D), InBounds len pos (parseLiteral mem len l v)
  parseArray : InBounds len pos (parseArrayN mem len stod n n)
  parseObject : InBounds len pos (parseObjectN mem len stod n n)
  parseValue : InBounds len pos (parseValueN mem len stod n n)
  parseString_progress : ∀ s q, (Raw.parseString mem len n pos).2 = .ret (s, q) → pos < q
  parseValue_progress : ∀ v q, (parseValueN mem len stod n n pos).2 = .ret (v, q) → pos < q

theorem inBounds_of_safe {β : Type} {len pos : Nat} {m : Prog β} (hpos : pos ≤ len)
    (hends : (m pos).2 ≠ .timeout) (hsafe : Safe len pos m) : InBounds len pos m := by
  obtain ⟨q, hstays, hq⟩ := hsafe
  refine ⟨hends, fun i => hstays.read_lt, hstays.positions_le hpos, hstays.sorted.2, ?_⟩
  intro b r hr
  rw [hq b r hr]
  exact hstays.le hpos

section Bounded

variable {D : Type} {stod : Bytes → Except ConvError D} {mem : Nat → UInt8} {json : Bytes}
  {n : Nat}

/-- A call that reads something ends behind it. -/
theorem lt_of_models {β : Type} {c : JsonParser} {m : Prog β} {o : Call (β × JsonParser)}
    (h : Models id c m o)
    (hless : ∀ b d, o = .ret (b, d) → d.rest.length < c.rest.length) {b : β} {q : Nat}
    (hret : (m c.pos).2 = .ret (b, q)) : c.pos < q := by
  rw [h.outcome] at hret
  obtain ⟨⟨b', d⟩, hd, hret⟩ := Outcome.bind_eq_ret_iff.mp hret
  obtain ⟨-, rfl⟩ := Prod.mk.inj (Outcome.ret.inj hret)
  have hlen := hless b' d hd
  have htext : d.text = c.text := h.text _ hd
  have hc := c.pos_le
  rw [c.rest_length, d.rest_length, htext] at hlen
  exact (by omega : c.pos < d.pos)

theorem bounded (hmem : ∀ i (h : i < json.length), mem i = json[i]) (hn : 3 * json.length + 3 ≤ n)
    {pos : Nat} (hpos : pos ≤ json.length) : Bounded mem json.length stod n pos := by
  let c : JsonParser := ⟨json, pos, hpos⟩
  have hc : c.text = json := rfl
  have hlen : json.length < n := by omega
  have hrest := rest_lt hc hlen
  have hle : c.rest.length ≤ json.length := c.rest_length.trans_le (Nat.sub_le _ _)
  have hat : ModelsAt mem json stod n n := modelsAt hmem hlen n
  have hstring := models_parseString hmem hc hlen
  have hvalue := hat.value c hc
  have hlit : ∀ (l : Bytes) (v : JsonValue D), Models id c (parseLiteral mem json.length l v)
      (Json.parseLiteral l v c) := fun l v =>
    (models_literalLoop hmem hc l l).bind fun _ _ _ => .ret rfl
  constructor
  · exact inBounds_of_safe hpos ((models_skipWhitespace hmem hc hrest).ne_timeout (by simp))
      (safe_skipWhitespace hpos n)
  · exact inBounds_of_safe hpos ((models_peek hmem hc).ne_timeout (peek_ne_timeout c))
      (safe_peek hpos)
  · exact inBounds_of_safe hpos ((models_consume hmem hc).ne_timeout (consume_ne_timeout c))
      (safe_consume hpos)
  · exact fun b => inBounds_of_safe hpos
      ((models_expect hmem hc hrest b).ne_timeout (expect_ne_timeout b c)) (safe_expect hpos n b)
  · exact inBounds_of_safe hpos (hstring.ne_timeout (parseString_ne_timeout c))
      (safe_parseString hpos n)
  · exact inBounds_of_safe hpos
      ((models_parseNumber hmem hc hlen stod).ne_timeout (parseNumber_ne_timeout c))
      (safe_parseNumber hpos stod n)
  · exact fun l v => inBounds_of_safe hpos
      ((hlit l v).ne_timeout (parseLiteral_ne_timeout l v c)) (safe_parseLiteral hpos l v)
  · exact inBounds_of_safe hpos ((hat.array c hc).ne_timeout ((totalAt n).array c (by omega)))
      ((safeAt n).array pos hpos)
  · exact inBounds_of_safe hpos ((hat.object c hc).ne_timeout ((totalAt n).object c (by omega)))
      ((safeAt n).object pos hpos)
  · exact inBounds_of_safe hpos (hvalue.ne_timeout ((totalAt n).value c (by omega)))
      ((safeAt n).value pos hpos)
  · exact fun s q => lt_of_models hstring fun _ _ => parseString_length
  · exact fun v q => lt_of_models hvalue fun _ _ h => ((soundAt n).value h).progress

/-- `parse()` ends as the checked parser does; if it returns, at the end of the text. -/
theorem models_parse (hmem : ∀ i (h : i < json.length), mem i = json[i])
    (hn : 3 * json.length + 3 ≤ n) :
    Models (value ⟨json, json.length, Nat.le_refl _⟩) (Cursor.start json)
      (parse mem json.length stod n) (Json.parse stod json) := by
  have hlen : json.length < n := by omega
  have hfuel : Json.parseValueN stod n (Cursor.start json) =
      Json.parseValue stod (Cursor.start json) := parseValueN_eq (by simpa [fuel] using hn)
  unfold Json.parse
  rw [← hfuel]
  refine ((modelsAt hmem hlen n).value _ rfl).bind fun ⟨v, p⟩ _ hp => ?_
  have hp : p.text = json := hp
  have hskip := models_skipWhitespace hmem hp (rest_lt hp hlen)
  have hd : (Json.skipWhitespace p).text = json := (hskip.text _ rfl).trans hp
  refine hskip.ret_bind (.pos_bind ?_)
  change Models _ (Json.skipWhitespace p) _ (if (Json.skipWhitespace p).pos ≠
    (Json.skipWhitespace p).text.length then _ else _)
  rw [hd]
  refine .ite (fun _ => .throw _) fun hend => .ret ?_
  refine Prod.ext rfl (Cursor.ext hd.symm (not_not.mp hend).symm)

/-- **The parser ends and stays in bounds on every input.** From any position in the text every
member function ends, reads only inside the text and moves `pos` only upwards and at most to the
end; what `parse_value` or `parse_string` returned took at least one byte. `parse()` ends in the
same way, as the checked parser says. -/
theorem parser_bounded (stod : Bytes → Except ConvError D) (json : Bytes) (mem : Nat → UInt8)
    (hmem : ∀ i (h : i < json.length), mem i = json[i]) (n : Nat)
    (hn : 3 * json.length + 3 ≤ n) :
    (∀ pos ≤ json.length, Bounded mem json.length stod n pos) ∧
      InBounds json.length 0 (parse mem json.length stod n) ∧
      (parse mem json.length stod n 0).2 =
        Json.parse stod json >>= fun v => .ret (v, json.length) := by
  have hparse : Models (value ⟨json, json.length, Nat.le_refl _⟩) (Cursor.start json)
      (parse mem json.length stod n) (Json.parse stod json) := models_parse hmem hn
  refine ⟨fun pos hpos => bounded hmem hn hpos, ?_, hparse.outcome⟩
  exact inBounds_of_safe (Nat.zero_le _) (hparse.ne_timeout (parse_ne_timeout json))
    (safe_parse (Nat.zero_le _))

/-- The text `[1`, cut off in its first item. -/
theorem parser_bounded_cut :
    InBounds 2 0 (parse (fun i => (ascii "[1").getD i 0xFF) 2
      (fun _ => .error .invalidArgument : Bytes → Except ConvError Unit) 9) :=
  (parser_bounded _ (ascii "[1") (fun i => (ascii "[1").getD i 0xFF) (fun i h => by
    rw [List.getD_eq_getElem?_getD, List.getElem?_eq_getElem h]
    rfl) 9 (by decide)).2.1

end Bounded

end CppExamples.Json.Raw
