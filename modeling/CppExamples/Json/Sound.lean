import CppExamples.Json.Numbers

/-!
# What the parser returns is derivable, and it always ends

* `soundAt`: whatever fuel the recursive descent ran with, what it returned is what the grammar
  derives for the bytes it read. One lemma per function, over the induction hypothesis that the
  functions it calls are sound with one unit of fuel less.
* `totalAt`: with three units of fuel for each byte left the descent never runs out. It rests on
  progress: a value takes at least one byte.
* `monoAt`, `parseValueN_eq`: more fuel does not change an outcome, so `parseValue` is the value of
  `parseValueN` at every amount of fuel that is enough.
-/

namespace CppExamples.Json

open Lib Lib.Cursor

variable {D : Type} {stod : Bytes → Except ConvError D}

/-! ## Soundness -/

/-- White space in front of an item list belongs to it. -/
theorem Items.ws_append {w t : Bytes} {vs : List (JsonValue D)} (hw : Ws w)
    (h : Items stod t vs) : Items stod (w ++ t) vs := by
  cases h with
  | one hw' hv hw'' =>
    have : Items stod _ _ := .one (hw.append hw') hv hw''
    simpa using this
  | cons hw' hv hw'' ht =>
    have : Items stod _ _ := .cons (hw.append hw') hv hw'' ht
    simpa using this

/-- White space in front of a member list belongs to it. -/
theorem Members.ws_append {w t : Bytes} {ms : List (Bytes × JsonValue D)} (hw : Ws w)
    (h : Members stod t ms) : Members stod (w ++ t) ms := by
  cases h with
  | one hw' hk h1 h2 hv hw'' =>
    have : Members stod _ _ := .one (hw.append hw') hk h1 h2 hv hw''
    simpa using this
  | cons hw' hk h1 h2 hv hw'' ht =>
    have : Members stod _ _ := .cons (hw.append hw') hk h1 h2 hv hw'' ht
    simpa using this

/-- What it means for a call that reads a value to be sound. -/
def ReadsValue (stod : Bytes → Except ConvError D) (p : JsonParser)
    (r : JsonValue D × JsonParser) : Prop :=
  ∃ w u, Ws w ∧ Value stod u r.1 ∧ Reads p (w ++ u) r.2

/-- The recursive descent is sound with `n` units of fuel. -/
structure SoundAt (stod : Bytes → Except ConvError D) (n : Nat) : Prop where
  value : ∀ {p r}, parseValueN stod n p = .ret r → ReadsValue stod p r
  array : ∀ {p r}, parseArrayN stod n p = .ret r → ReadsValue stod p r
  items : ∀ {p arr arr' q}, arrayLoopN stod n p arr = .ret (arr', q) →
    ∃ t vs, Items stod t vs ∧ arr' = arr ++ vs ∧ Reads p t q ∧ ∃ s, q.rest = ch ']' :: s
  object : ∀ {p r}, parseObjectN stod n p = .ret r → ReadsValue stod p r
  members : ∀ {p obj obj' q}, objectLoopN stod n p obj = .ret (obj', q) →
    ∃ t ms, Members stod t ms ∧ obj' = ms.foldl (fun m e => OrdMap.assign m e.1 e.2) obj ∧
      Reads p t q ∧ ∃ s, q.rest = ch '\x7d' :: s

theorem readsValue_of_reads {p q : JsonParser} {w : Bytes} {r : JsonValue D × JsonParser}
    (hw : Ws w) (h : Reads p w q) (hr : ReadsValue stod q r) : ReadsValue stod p r := by
  obtain ⟨w', u, hw', hu, hread⟩ := hr
  exact ⟨w ++ w', u, hw.append hw', hu, by rw [List.append_assoc]; exact h.trans hread⟩

theorem sound_value {n : Nat} (ih : SoundAt stod n) {p : JsonParser}
    {r : JsonValue D × JsonParser} (h : parseValueN stod (n + 1) p = .ret r) :
    ReadsValue stod p r := by
  obtain ⟨w, hw, hws, -⟩ := exists_skipWhitespace p
  refine readsValue_of_reads hw hws ?_
  obtain ⟨c, hpeek, h⟩ := Outcome.bind_eq_ret_iff.mp h
  obtain ⟨t, hrest⟩ := rest_of_peek hpeek
  split at h
  · obtain ⟨⟨s, q⟩, hs, h⟩ := Outcome.bind_eq_ret_iff.mp h
    obtain rfl := Outcome.ret.inj h
    obtain ⟨w', u, hw', hu, hr⟩ := parseString_sound hs
    exact ⟨w', u, hw', .string hu, hr⟩
  split at h
  · rename_i hc
    have hhead : Head numberStart (skipWhitespace p).rest :=
      ⟨c, t, hrest, by rcases hc with rfl | hc <;> simp [numberStart, *]⟩
    obtain ⟨u, hu, hr, -⟩ := parseNumber_sound hhead h
    exact ⟨[], u, Ws.nil, .number hu, hr⟩
  split at h
  · exact ih.array h
  split at h
  · exact ih.object h
  split at h
  · obtain ⟨hv, hr⟩ := parseLiteral_sound h
    exact ⟨[], _, Ws.nil, hv ▸ .litTrue, hr⟩
  split at h
  · obtain ⟨hv, hr⟩ := parseLiteral_sound h
    exact ⟨[], _, Ws.nil, hv ▸ .litFalse, hr⟩
  split at h
  · obtain ⟨hv, hr⟩ := parseLiteral_sound h
    exact ⟨[], _, Ws.nil, hv ▸ .litNull, hr⟩
  · exact absurd h (by simp)

/-- `parse_array` and `parse_object`: brackets around what a loop reads, or around white space. -/
def brackets {β : Type} (a b : UInt8) (loop : JsonParser → Call (β × JsonParser)) (empty : β)
    (wrap : β → JsonValue D) (p : JsonParser) : Call (JsonValue D × JsonParser) := do
  let p ← expect a p
  let p := skipWhitespace p
  let c ← peek p
  let (items, p) ← (if c ≠ b then loop p else pure (empty, p))
  let p ← expect b p
  pure (wrap items, p)

theorem parseArrayN_eq (n : Nat) (p : JsonParser) : parseArrayN stod (n + 1) p =
    brackets (ch '[') (ch ']') (fun p => arrayLoopN stod n p []) [] .array p := rfl

theorem parseObjectN_eq (n : Nat) (p : JsonParser) : parseObjectN stod (n + 1) p =
    brackets (ch '\x7b') (ch '\x7d') (fun p => objectLoopN stod n p []) [] .object p := rfl

theorem brackets_sound {β : Type} {a b : UInt8} {loop : JsonParser → Call (β × JsonParser)}
    {empty : β} {wrap : β → JsonValue D} {p : JsonParser} {r : JsonValue D × JsonParser}
    (hb : isspace b = false) (hempty : ∀ w, Ws w → Value stod (a :: w ++ [b]) (wrap empty))
    (hloop : ∀ p₁ items q, loop p₁ = .ret (items, q) →
      ∃ t, (∀ w, Ws w → Value stod (a :: (w ++ t) ++ [b]) (wrap items)) ∧ Reads p₁ t q ∧
        ∃ s, q.rest = b :: s)
    (h : brackets a b loop empty wrap p = .ret r) : ReadsValue stod p r := by
  obtain ⟨p₁, h1, h⟩ := Outcome.bind_eq_ret_iff.mp h
  obtain ⟨c, hpeek, h⟩ := Outcome.bind_eq_ret_iff.mp h
  obtain ⟨⟨items, p₂⟩, h2, h⟩ := Outcome.bind_eq_ret_iff.mp h
  obtain ⟨q, h3, h⟩ := Outcome.bind_eq_ret_iff.mp h
  obtain rfl := Outcome.ret.inj h
  obtain ⟨w, hw, hr1⟩ := expect_sound h1
  obtain ⟨w₁, hw₁, hr2, -⟩ := exists_skipWhitespace p₁
  split at h2
  · obtain ⟨t, hvalue, hr3, s, hs⟩ := hloop _ _ _ h2
    have hr4 := expect_here hb hs h3
    refine ⟨w, _, hw, hvalue w₁ hw₁, ?_⟩
    simpa using ((hr1.trans hr2).trans hr3).trans hr4
  · obtain ⟨rfl, rfl⟩ := Prod.mk.inj (Outcome.ret.inj h2)
    obtain ⟨w₂, hw₂, hr4⟩ := expect_sound h3
    refine ⟨w, _, hw, hempty _ (hw₁.append hw₂), ?_⟩
    simpa using (hr1.trans hr2).trans hr4

theorem sound_array {n : Nat} (ih : SoundAt stod n) {p : JsonParser}
    {r : JsonValue D × JsonParser} (h : parseArrayN stod (n + 1) p = .ret r) :
    ReadsValue stod p r := by
  rw [parseArrayN_eq] at h
  refine brackets_sound (by decide) (fun w hw => .emptyArray hw) (fun p₁ arr q hq => ?_) h
  obtain ⟨t, vs, hitems, rfl, hr, hs⟩ := ih.items hq
  exact ⟨t, fun w hw => .array (hitems.ws_append hw), hr, hs⟩

theorem sound_items {n : Nat} (ih : SoundAt stod n) {p q : JsonParser}
    {arr arr' : List (JsonValue D)} (h : arrayLoopN stod (n + 1) p arr = .ret (arr', q)) :
    ∃ t vs, Items stod t vs ∧ arr' = arr ++ vs ∧ Reads p t q ∧ ∃ s, q.rest = ch ']' :: s := by
  obtain ⟨⟨v, p₁⟩, h1, h⟩ := Outcome.bind_eq_ret_iff.mp h
  obtain ⟨c, hpeek, h⟩ := Outcome.bind_eq_ret_iff.mp h
  obtain ⟨w, u, hw, hu, hr1⟩ := ih.value h1
  obtain ⟨w', hw', hr2, -⟩ := exists_skipWhitespace p₁
  obtain ⟨s, hs⟩ := rest_of_peek hpeek
  split at h
  · rename_i hc
    obtain ⟨⟨c', p₂⟩, h2, h⟩ := Outcome.bind_eq_ret_iff.mp h
    have hr3 := reads_of_consume h2
    obtain rfl := (List.cons.inj (hs.symm.trans hr3.rest)).1
    obtain ⟨t, vs, hitems, rfl, hr4, hend⟩ := ih.items h
    refine ⟨_, v :: vs, .cons hw hu hw' hitems, by simp, ?_, hend⟩
    subst hc
    simpa using ((hr1.trans hr2).trans hr3).trans hr4
  · split at h
    · rename_i hc
      obtain ⟨rfl, rfl⟩ := Prod.mk.inj (Outcome.ret.inj h)
      exact ⟨_, [v], .one hw hu hw', rfl, hr1.trans hr2, s, hc ▸ hs⟩
    · exact absurd h (by simp)

theorem sound_object {n : Nat} (ih : SoundAt stod n) {p : JsonParser}
    {r : JsonValue D × JsonParser} (h : parseObjectN stod (n + 1) p = .ret r) :
    ReadsValue stod p r := by
  rw [parseObjectN_eq] at h
  refine brackets_sound (by decide) (fun w hw => .emptyObject hw) (fun p₁ obj q hq => ?_) h
  obtain ⟨t, ms, hmembers, rfl, hr, hs⟩ := ih.members hq
  -- the map the loop built from the empty one is `OrdMap.ofMembers ms`
  have hlast : LastWins ms (OrdMap.ofMembers ms) :=
    ⟨OrdMap.sorted_ofMembers ms, OrdMap.find?_ofMembers ms⟩
  exact ⟨t, fun w hw => .object (hmembers.ws_append hw) hlast, hr, hs⟩

theorem sound_members {n : Nat} (ih : SoundAt stod n) {p q : JsonParser}
    {obj obj' : List (Bytes × JsonValue D)}
    (h : objectLoopN stod (n + 1) p obj = .ret (obj', q)) :
    ∃ t ms, Members stod t ms ∧ obj' = ms.foldl (fun m e => OrdMap.assign m e.1 e.2) obj ∧
      Reads p t q ∧ ∃ s, q.rest = ch '\x7d' :: s := by
  obtain ⟨⟨k, p₁⟩, h1, h⟩ := Outcome.bind_eq_ret_iff.mp h
  obtain ⟨p₂, h2, h⟩ := Outcome.bind_eq_ret_iff.mp h
  obtain ⟨⟨v, p₃⟩, h3, h⟩ := Outcome.bind_eq_ret_iff.mp h
  obtain ⟨c, hpeek, h⟩ := Outcome.bind_eq_ret_iff.mp h
  obtain ⟨w, lit, hw, hlit, hr1⟩ := parseString_sound h1
  obtain ⟨w₁, hw₁, hr2⟩ := expect_sound h2
  obtain ⟨w₂, u, hw₂, hu, hr3⟩ := ih.value h3
  obtain ⟨w', hw', hr4, -⟩ := exists_skipWhitespace p₃
  obtain ⟨s, hs⟩ := rest_of_peek hpeek
  have hread := ((hr1.trans hr2).trans hr3).trans hr4
  split at h
  · rename_i hc
    obtain ⟨⟨c', p₄⟩, h5, h⟩ := Outcome.bind_eq_ret_iff.mp h
    have hr5 := reads_of_consume h5
    obtain rfl := (List.cons.inj (hs.symm.trans hr5.rest)).1
    obtain ⟨t, ms, hmembers, rfl, hr6, hend⟩ := ih.members h
    refine ⟨_, (k, v) :: ms, .cons hw hlit hw₁ hw₂ hu hw' hmembers, rfl, ?_, hend⟩
    subst hc
    simpa using (hread.trans hr5).trans hr6
  · split at h
    · rename_i hc
      obtain ⟨rfl, rfl⟩ := Prod.mk.inj (Outcome.ret.inj h)
      refine ⟨_, [(k, v)], .one hw hlit hw₁ hw₂ hu hw', rfl, ?_, s, hc ▸ hs⟩
      simpa using hread
    · exact absurd h (by simp)

/-- **The descent is sound, whatever the fuel.** -/
theorem soundAt : ∀ n, SoundAt stod n
  | 0 => by
    refine ⟨?_, ?_, ?_, ?_, ?_⟩ <;> intros <;> rename_i h <;>
      simp [parseValueN, parseArrayN, arrayLoopN, parseObjectN, objectLoopN] at h
  | n + 1 =>
    have ih := soundAt n
    ⟨sound_value ih, sound_array ih, sound_items ih, sound_object ih, sound_members ih⟩

/-! ## Progress and termination -/

/-- The bytes a value starts with. -/
def valueStart (c : UInt8) : Bool :=
  c == ch '"' || c == ch '-' || isdigit c || c == ch '[' || c == ch '\x7b' || c == ch 't' ||
    c == ch 'f' || c == ch 'n'

theorem StringLit.head {u s : Bytes} (h : StringLit u s) : Head (fun c => c == ch '"') u := by
  obtain ⟨b, -, rfl⟩ := h
  exact ⟨_, _, rfl, rfl⟩

theorem Value.head {u : Bytes} {v : JsonValue D} (h : Value stod u v) : Head valueStart u := by
  cases h with
  | string h => exact h.head.imp fun c hc => eq_of_beq hc ▸ rfl
  | number h =>
    refine h.head.imp fun c hc => ?_
    rcases Bool.or_eq_true_iff.mp hc with hminus | hdigit
    · exact eq_of_beq hminus ▸ rfl
    · simp [valueStart, hdigit]
  | emptyArray => exact ⟨_, _, rfl, rfl⟩
  | array => exact ⟨_, _, rfl, rfl⟩
  | emptyObject => exact ⟨_, _, rfl, rfl⟩
  | object => exact ⟨_, _, rfl, rfl⟩
  | litTrue => exact ⟨ch 't', ascii "rue", rfl, rfl⟩
  | litFalse => exact ⟨ch 'f', ascii "alse", rfl, rfl⟩
  | litNull => exact ⟨ch 'n', ascii "ull", rfl, rfl⟩

/-- A value takes at least one byte. -/
theorem ReadsValue.progress {p : JsonParser} {r : JsonValue D × JsonParser}
    (h : ReadsValue stod p r) : r.2.rest.length < p.rest.length := by
  obtain ⟨w, u, -, hu, hr⟩ := h
  have hlen := hr.rest_length
  have hpos := List.length_pos_iff.mpr hu.head.ne_nil
  rw [List.length_append] at hlen
  omega

theorem skipWhitespace_length (p : JsonParser) :
    (skipWhitespace p).rest.length ≤ p.rest.length := by
  obtain ⟨w, -, hr, -⟩ := exists_skipWhitespace p
  rw [hr.rest_length]
  exact Nat.le_add_left _ _

theorem expect_length {c : UInt8} {p q : JsonParser} (h : expect c p = .ret q) :
    q.rest.length < p.rest.length := by
  obtain ⟨w, -, hr⟩ := expect_sound h
  have := hr.rest_length
  rw [List.length_append, List.length_singleton] at this
  omega

theorem consume_length {c : UInt8} {p q : JsonParser} (h : consume p = .ret (c, q)) :
    q.rest.length < p.rest.length := by
  have := (reads_of_consume h).rest_length
  rw [List.length_singleton] at this
  omega

theorem parseString_length {s : Bytes} {p q : JsonParser} (h : parseString p = .ret (s, q)) :
    q.rest.length < p.rest.length := by
  obtain ⟨w, u, -, hu, hr⟩ := parseString_sound h
  have hlen := hr.rest_length
  have hpos := List.length_pos_iff.mpr hu.head.ne_nil
  rw [List.length_append] at hlen
  omega

/-! ### The scanner does not run out of fuel: it has none -/

theorem peek_ne_timeout (p : JsonParser) : peek p ≠ .timeout := by
  unfold peek
  split <;> simp

theorem consume_ne_timeout (p : JsonParser) : consume p ≠ .timeout := by
  unfold consume
  split <;> simp

theorem expect_ne_timeout (c : UInt8) (p : JsonParser) : expect c p ≠ .timeout := by
  refine Outcome.bind_ne_timeout (peek_ne_timeout _) fun got _ => ?_
  split
  · exact Outcome.bind_ne_timeout (consume_ne_timeout _) fun _ _ => by simp
  · simp

theorem stringLoop_ne_timeout (p : JsonParser) (s : Bytes) : stringLoop p s ≠ .timeout := by
  fun_induction stringLoop p s <;> simp_all

theorem parseString_ne_timeout (p : JsonParser) : parseString p ≠ .timeout := by
  refine Outcome.bind_ne_timeout (expect_ne_timeout _ _) fun _ _ => ?_
  refine Outcome.bind_ne_timeout (stringLoop_ne_timeout _ _) fun _ _ => ?_
  exact Outcome.bind_ne_timeout (expect_ne_timeout _ _) fun _ _ => by simp

theorem optional_ne_timeout (test : UInt8 → Bool) (p : JsonParser) :
    optional test p ≠ .timeout := by
  refine Outcome.bind_ne_timeout (peek_ne_timeout _) fun c _ => ?_
  split
  · exact Outcome.bind_ne_timeout (consume_ne_timeout _) fun _ _ => by simp
  · simp

theorem scanNumber_ne_timeout (p : JsonParser) : scanNumber p ≠ .timeout := by
  have hfrac : ∀ p, parseFraction p ≠ .timeout := fun p =>
    Outcome.bind_ne_timeout (optional_ne_timeout _ _) fun _ _ => by simp
  have hexp : ∀ p, parseExponent p ≠ .timeout := fun p => by
    refine Outcome.bind_ne_timeout (optional_ne_timeout _ _) fun ⟨b, q⟩ _ => ?_
    cases b with
    | true => exact Outcome.bind_ne_timeout (optional_ne_timeout _ _) fun _ _ => by simp
    | false => simp
  refine Outcome.bind_ne_timeout (optional_ne_timeout _ _) fun _ _ => ?_
  refine Outcome.bind_ne_timeout (hfrac _) fun _ _ => ?_
  exact Outcome.bind_ne_timeout (hexp _) fun _ _ => by simp

theorem parseNumber_ne_timeout (p : JsonParser) : parseNumber stod p ≠ .timeout := by
  refine Outcome.bind_ne_timeout (scanNumber_ne_timeout p) fun r _ => ?_
  refine Outcome.bind_ne_timeout ?_ fun _ _ => by simp
  unfold convert
  split <;> split <;> simp

theorem literalLoop_ne_timeout (literal l : Bytes) (p : JsonParser) :
    literalLoop literal l p ≠ .timeout := by
  induction l generalizing p with
  | nil => simp [literalLoop]
  | cons c l ih =>
    unfold literalLoop
    split
    · split
      · exact ih _
      · simp
    · simp

theorem parseLiteral_ne_timeout (literal : Bytes) (v : JsonValue D) (p : JsonParser) :
    parseLiteral literal v p ≠ .timeout :=
  Outcome.bind_ne_timeout (literalLoop_ne_timeout _ _ _) fun _ _ => by simp

/-- With `n` units of fuel the descent ends on every text short enough for them. -/
structure TotalAt (stod : Bytes → Except ConvError D) (n : Nat) : Prop where
  value : ∀ p, 3 * p.rest.length + 2 ≤ n → parseValueN stod n p ≠ .timeout
  array : ∀ p, 3 * p.rest.length + 1 ≤ n → parseArrayN stod n p ≠ .timeout
  items : ∀ p arr, 3 * p.rest.length + 3 ≤ n → arrayLoopN stod n p arr ≠ .timeout
  object : ∀ p, 3 * p.rest.length + 1 ≤ n → parseObjectN stod n p ≠ .timeout
  members : ∀ p obj, 3 * p.rest.length + 3 ≤ n → objectLoopN stod n p obj ≠ .timeout

theorem total_value {n : Nat} (ih : TotalAt stod n) (p : JsonParser)
    (hn : 3 * p.rest.length + 2 ≤ n + 1) : parseValueN stod (n + 1) p ≠ .timeout := by
  have hlen := skipWhitespace_length p
  refine Outcome.bind_ne_timeout (peek_ne_timeout _) fun c _ => ?_
  split
  · exact Outcome.bind_ne_timeout (parseString_ne_timeout _) fun _ _ => by simp
  split
  · exact parseNumber_ne_timeout _
  split
  · exact ih.array _ (by omega)
  split
  · exact ih.object _ (by omega)
  split
  · exact parseLiteral_ne_timeout _ _ _
  split
  · exact parseLiteral_ne_timeout _ _ _
  split
  · exact parseLiteral_ne_timeout _ _ _
  · simp

theorem brackets_ne_timeout {β : Type} {a b : UInt8} {loop : JsonParser → Call (β × JsonParser)}
    {empty : β} {wrap : β → JsonValue D} {p : JsonParser}
    (h : ∀ p₁, expect a p = .ret p₁ → loop (skipWhitespace p₁) ≠ .timeout) :
    brackets a b loop empty wrap p ≠ .timeout := by
  refine Outcome.bind_ne_timeout (expect_ne_timeout _ _) fun p₁ h1 => ?_
  refine Outcome.bind_ne_timeout (peek_ne_timeout _) fun c _ => ?_
  refine Outcome.bind_ne_timeout ?_ fun _ _ =>
    Outcome.bind_ne_timeout (expect_ne_timeout _ _) fun _ _ => by simp
  split
  · exact h p₁ h1
  · simp

theorem total_array {n : Nat} (ih : TotalAt stod n) (p : JsonParser)
    (hn : 3 * p.rest.length + 1 ≤ n + 1) : parseArrayN stod (n + 1) p ≠ .timeout := by
  rw [parseArrayN_eq]
  refine brackets_ne_timeout fun p₁ h1 => ?_
  have hlen := expect_length h1
  have hlen' := skipWhitespace_length p₁
  exact ih.items _ _ (by omega)

theorem total_items {n : Nat} (ih : TotalAt stod n) (p : JsonParser) (arr : List (JsonValue D))
    (hn : 3 * p.rest.length + 3 ≤ n + 1) : arrayLoopN stod (n + 1) p arr ≠ .timeout := by
  refine Outcome.bind_ne_timeout (ih.value _ (by omega)) fun r h1 => ?_
  have hlen := ((soundAt n).value h1).progress
  have hlen' := skipWhitespace_length r.2
  refine Outcome.bind_ne_timeout (peek_ne_timeout _) fun c _ => ?_
  split
  · refine Outcome.bind_ne_timeout (consume_ne_timeout _) fun r' h2 => ?_
    have := consume_length h2
    exact ih.items _ _ (by omega)
  · split <;> simp

theorem total_object {n : Nat} (ih : TotalAt stod n) (p : JsonParser)
    (hn : 3 * p.rest.length + 1 ≤ n + 1) : parseObjectN stod (n + 1) p ≠ .timeout := by
  rw [parseObjectN_eq]
  refine brackets_ne_timeout fun p₁ h1 => ?_
  have hlen := expect_length h1
  have hlen' := skipWhitespace_length p₁
  exact ih.members _ _ (by omega)

theorem total_members {n : Nat} (ih : TotalAt stod n) (p : JsonParser)
    (obj : List (Bytes × JsonValue D)) (hn : 3 * p.rest.length + 3 ≤ n + 1) :
    objectLoopN stod (n + 1) p obj ≠ .timeout := by
  refine Outcome.bind_ne_timeout (parseString_ne_timeout _) fun r h1 => ?_
  have hlen1 := parseString_length h1
  refine Outcome.bind_ne_timeout (expect_ne_timeout _ _) fun p₂ h2 => ?_
  have hlen2 := expect_length h2
  refine Outcome.bind_ne_timeout (ih.value _ (by omega)) fun r' h3 => ?_
  have hlen3 := ((soundAt n).value h3).progress
  have hlen4 := skipWhitespace_length r'.2
  refine Outcome.bind_ne_timeout (peek_ne_timeout _) fun c _ => ?_
  split
  · refine Outcome.bind_ne_timeout (consume_ne_timeout _) fun r'' h5 => ?_
    have := consume_length h5
    exact ih.members _ _ (by omega)
  · split <;> simp

/-- **The descent ends.** -/
theorem totalAt : ∀ n, TotalAt stod n
  | 0 => ⟨fun _ h => by omega, fun _ h => by omega, fun _ _ h => by omega, fun _ h => by omega,
      fun _ _ h => by omega⟩
  | n + 1 =>
    have ih := totalAt n
    ⟨total_value ih, total_array ih, total_items ih, total_object ih, total_members ih⟩

/-! ## The fuel is not observable -/

/-- One more unit of fuel changes no outcome but running out. -/
structure MonoAt (stod : Bytes → Except ConvError D) (n : Nat) : Prop where
  value : ∀ p, Outcome.Le (parseValueN stod n p) (parseValueN stod (n + 1) p)
  array : ∀ p, Outcome.Le (parseArrayN stod n p) (parseArrayN stod (n + 1) p)
  items : ∀ p arr, Outcome.Le (arrayLoopN stod n p arr) (arrayLoopN stod (n + 1) p arr)
  object : ∀ p, Outcome.Le (parseObjectN stod n p) (parseObjectN stod (n + 1) p)
  members : ∀ p obj, Outcome.Le (objectLoopN stod n p obj) (objectLoopN stod (n + 1) p obj)

theorem brackets_le {β : Type} {a b : UInt8} {loop loop' : JsonParser → Call (β × JsonParser)}
    {empty : β} {wrap : β → JsonValue D} (h : ∀ p, Outcome.Le (loop p) (loop' p)) (p : JsonParser) :
    Outcome.Le (brackets a b loop empty wrap p) (brackets a b loop' empty wrap p) :=
  (Outcome.Le.refl _).bind fun _ => (Outcome.Le.refl _).bind fun _ =>
    Outcome.Le.bind (.ite (h _) (.refl _)) fun _ => .refl _

theorem monoAt : ∀ n, MonoAt stod n
  | 0 => ⟨fun _ => .timeout _, fun _ => .timeout _, fun _ _ => .timeout _, fun _ => .timeout _,
      fun _ _ => .timeout _⟩
  | n + 1 => by
    have ih := monoAt n
    refine ⟨fun p => ?_, fun p => ?_, fun p arr => ?_, fun p => ?_, fun p obj => ?_⟩
    · exact (Outcome.Le.refl _).bind fun c => .ite (.refl _) (.ite (.refl _) (.ite (ih.array _)
        (.ite (ih.object _) (.refl _))))
    · rw [parseArrayN_eq, parseArrayN_eq]
      exact brackets_le (fun p => ih.items p []) p
    · exact (ih.value _).bind fun _ => (Outcome.Le.refl _).bind fun _ =>
        .ite ((Outcome.Le.refl _).bind fun _ => ih.items _ _) (.refl _)
    · rw [parseObjectN_eq, parseObjectN_eq]
      exact brackets_le (fun p => ih.members p []) p
    · exact (Outcome.Le.refl _).bind fun _ => (Outcome.Le.refl _).bind fun _ =>
        (ih.value _).bind fun _ => (Outcome.Le.refl _).bind fun _ =>
          .ite ((Outcome.Le.refl _).bind fun _ => ih.members _ _) (.refl _)

/-- `parse_value` always ends, with a value or an exception. -/
theorem parseValue_ne_timeout (p : JsonParser) : parseValue stod p ≠ .timeout :=
  (totalAt _).value p (by unfold fuel; omega)

/-- **`parseValue` is the outcome at every amount of fuel that is enough.** -/
theorem parseValueN_eq {p : JsonParser} {n : Nat} (hn : fuel p ≤ n) :
    parseValueN stod n p = parseValue stod p := by
  induction n, hn using Nat.le_induction with
  | base => rfl
  | succ n hn ih =>
    have hne : parseValueN stod n p ≠ .timeout := ih ▸ parseValue_ne_timeout p
    rw [← ((monoAt n).value p).eq_of_ne_timeout hne, ih]

end CppExamples.Json
