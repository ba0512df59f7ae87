import CppExamples.Json.Scan

/-!
# Numbers against the grammar

A number is the one token without an end mark of its own: the scan is greedy, and it looks at the
byte after the token. `parseNumber_complete` therefore asks for a byte there that cannot extend a
number (`delim`), which is what every continuation of a value in the grammar starts with. At the
end of the input there is no such byte, and the scan throws unless it is inside an exponent by
then: `unended` tells the two kinds of tokens apart.
-/

namespace CppExamples.Json

open Lib Lib.Cursor

/-! ## What was scanned -/

theorem optional_sound {test : UInt8 → Bool} {p q : JsonParser} {b : Bool}
    (h : optional test p = .ret (b, q)) :
    (b = true ∧ ∃ c, test c = true ∧ Reads p [c] q) ∨ (b = false ∧ q = p) := by
  obtain ⟨c, hc, h⟩ := Outcome.bind_eq_ret_iff.mp h
  split at h
  · rename_i htest
    obtain ⟨⟨c', q'⟩, hcons, h⟩ := Outcome.bind_eq_ret_iff.mp h
    obtain ⟨rfl, rfl⟩ := Prod.mk.inj (Outcome.ret.inj h)
    obtain ⟨t, ht⟩ := rest_of_peek hc
    have hr := reads_of_consume hcons
    obtain rfl := (List.cons.inj (ht.symm.trans hr.rest)).1
    exact .inl ⟨rfl, c, htest, hr⟩
  · obtain ⟨rfl, rfl⟩ := Prod.mk.inj (Outcome.ret.inj h)
    exact .inr ⟨rfl, rfl⟩

theorem optional_true {test : UInt8 → Bool} {p q : JsonParser} {c : UInt8} (hc : test c = true)
    (h : Reads p [c] q) : optional test p = .ret (true, q) := by
  simp [optional, peek_of_rest h.rest, hc, consume_of_reads h]

theorem optional_false {test : UInt8 → Bool} {p : JsonParser} {f : UInt8 → Bool}
    (h : Head f p.rest) (hf : Apart f test) :
    optional test p = .ret (false, p) := by
  obtain ⟨c, s, hcs, hc⟩ := h
  simp [optional, peek_of_rest hcs, hf c hc]

/-- The digit loop reads a run of digits, all of it. -/
theorem exists_skipDigits (p : JsonParser) :
    ∃ ds, Digits ds ∧ Reads p ds (p.skipWhile isdigit) := by
  obtain ⟨ds, hr, hd, -⟩ := exists_skipWhile isdigit p
  exact ⟨ds, digits_iff.mpr hd, hr⟩

theorem parseFraction_sound {p q : JsonParser} {b : Bool}
    (h : parseFraction p = .ret (b, q)) : ∃ u, Fraction u b ∧ Reads p u q := by
  obtain ⟨⟨b', p₁⟩, h1, h⟩ := Outcome.bind_eq_ret_iff.mp h
  obtain ⟨rfl, rfl⟩ := Prod.mk.inj (Outcome.ret.inj h)
  rcases optional_sound h1 with ⟨rfl, c, hc, hr⟩ | ⟨rfl, rfl⟩
  · obtain ⟨ds, hd, hr'⟩ := exists_skipDigits p₁
    obtain rfl := eq_of_beq hc
    exact ⟨_, .some hd, hr.trans hr'⟩
  · exact ⟨[], .none, Reads.refl p₁⟩

/-- A byte was there to look at: something is left, or it was read. -/
theorem optional_rest {test : UInt8 → Bool} {p q : JsonParser} {b : Bool}
    (h : optional test p = .ret (b, q)) : p.rest ≠ [] := by
  obtain ⟨c, hc, -⟩ := Outcome.bind_eq_ret_iff.mp h
  obtain ⟨t, ht⟩ := rest_of_peek hc
  rw [ht]
  exact List.cons_ne_nil c t

theorem parseExponent_sound {p q : JsonParser} {b : Bool} (h : parseExponent p = .ret (b, q)) :
    ∃ u, Exponent u b ∧ Reads p u q ∧ (q.rest = [] → 2 ≤ u.length) := by
  obtain ⟨⟨b', p₁⟩, h1, hp⟩ := Outcome.bind_eq_ret_iff.mp h
  rcases optional_sound h1 with ⟨rfl, c, hc, hr⟩ | ⟨rfl, rfl⟩
  · obtain ⟨⟨sb, p₂⟩, h2, hs⟩ := Outcome.bind_eq_ret_iff.mp hp
    obtain ⟨rfl, rfl⟩ := Prod.mk.inj (Outcome.ret.inj hs)
    obtain ⟨ds, hd, hr'⟩ := exists_skipDigits p₂
    have he : c = ch 'e' ∨ c = ch 'E' := by simpa using hc
    have hmore := optional_rest h2
    rcases optional_sound h2 with ⟨-, sg, hsg, hr2⟩ | ⟨-, rfl⟩
    · have hsign : Sign [sg] := by
        have : sg = ch '+' ∨ sg = ch '-' := by simpa using hsg
        rcases this with rfl | rfl
        · exact .inr (.inl rfl)
        · exact .inr (.inr rfl)
      exact ⟨_, .some he hsign hd, (hr.trans hr2).trans hr', fun _ => by simp⟩
    · refine ⟨_, .some he (.inl rfl) hd, hr.trans hr', fun hend => ?_⟩
      -- the byte that is no sign can only have been read as a digit
      rw [hr'.rest, hend, List.append_nil] at hmore
      have hpos := List.length_pos_iff.mpr hmore
      rw [List.length_append, List.length_singleton]
      omega
  · obtain ⟨rfl, rfl⟩ := Prod.mk.inj (Outcome.ret.inj hp)
    exact ⟨[], .none, Reads.refl p₁, fun hend => absurd hend (optional_rest h1)⟩

/-- What `parse_number` scanned. -/
theorem scanNumber_sound {p q : JsonParser} {b : Bool} (h : scanNumber p = .ret (b, q)) :
    ∃ neg ds fr ex bf be, Digits ds ∧ Fraction fr bf ∧ Exponent ex be ∧ b = (bf || be) ∧
      Reads p (signed neg ds ++ fr ++ ex) q ∧ (q.rest = [] → 2 ≤ ex.length) := by
  obtain ⟨⟨neg, p₁⟩, h1, h⟩ := Outcome.bind_eq_ret_iff.mp h
  obtain ⟨⟨bf, p₂⟩, h2, h⟩ := Outcome.bind_eq_ret_iff.mp h
  obtain ⟨⟨be, p₃⟩, h3, h⟩ := Outcome.bind_eq_ret_iff.mp h
  obtain ⟨rfl, rfl⟩ := Prod.mk.inj (Outcome.ret.inj h)
  obtain ⟨ds, hd, hrd⟩ := exists_skipDigits p₁
  obtain ⟨fr, hf, hrf⟩ := parseFraction_sound h2
  obtain ⟨ex, he, hre, hend⟩ := parseExponent_sound h3
  have hsigned : Reads p (signed neg ds) (p₁.skipWhile isdigit) := by
    rcases optional_sound h1 with ⟨rfl, c, hc, hr⟩ | ⟨rfl, rfl⟩
    · obtain rfl := eq_of_beq hc
      exact hr.trans hrd
    · exact hrd
  exact ⟨neg, ds, fr, ex, bf, be, hd, hf, he, rfl, (hsigned.trans hrf).trans hre, hend⟩

theorem substr_of_reads {p q : JsonParser} {u : Bytes} (h : Reads p u q) : substr p q = u := by
  rw [substr, h.pos, h.rest, Nat.add_sub_cancel_left, List.take_left]

/-! ### Nothing that follows a part of a number extends it -/

/-- The bytes an exponent starts with. -/
def expStart (c : UInt8) : Bool := c == ch 'e' || c == ch 'E'

theorem apart_expStart_delim : Apart expStart delim := (apart_byte rfl).or (apart_byte rfl)

/-- What follows a fraction is not a digit. -/
theorem apart_afterFraction_isdigit : Apart (fun c => expStart c || delim c) isdigit :=
  Apart.or ((apart_byte rfl).or (apart_byte rfl)) apart_delim_isdigit

/-- What can stand behind a number with the exponent `ex`: a delimiter, or nothing if the scan is
past the byte after the `e` by then. -/
def Closes (ex t : Bytes) : Prop := Head delim t ∨ (t = [] ∧ 2 ≤ ex.length)

theorem Closes.head {t : Bytes} (h : Closes [] t) : Head delim t :=
  h.resolve_right fun h' => absurd h'.2 (by simp)

theorem Closes.stops {ex t : Bytes} (h : Closes ex t) : Stops isdigit t := by
  rcases h with h | ⟨rfl, -⟩
  · exact h.stops apart_delim_isdigit
  · exact Stops.nil _

theorem Exponent.head {ex t : Bytes} {b : Bool} (h : Exponent ex b) (ht : Closes ex t) :
    Head (fun c => expStart c || delim c) (ex ++ t) := by
  cases h with
  | none => exact ht.head.imp fun c hc => by simp [hc]
  | @some e sg ds he hs hd =>
    exact ⟨e, sg ++ ds ++ t, by simp, by rcases he with rfl | rfl <;> rfl⟩

theorem Fraction.head {fr t : Bytes} {b : Bool} (h : Fraction fr b)
    (ht : Head (fun c => expStart c || delim c) t) :
    Head (fun c => c == ch '.' || (expStart c || delim c)) (fr ++ t) := by
  cases h with
  | none => exact ht.imp fun c hc => by simp only [hc, Bool.or_true]
  | @some ds hd => exact ⟨ch '.', ds ++ t, by simp, rfl⟩

theorem skipDigits_eq {p q : JsonParser} {ds : Bytes} {f : UInt8 → Bool} (hd : Digits ds)
    (h : Reads p ds q) (hq : Head f q.rest) (hf : Apart f isdigit) :
    p.skipWhile isdigit = q :=
  skipWhile_eq h (digits_iff.mp hd) (hq.stops hf)

theorem parseFraction_complete {p q : JsonParser} {fr : Bytes} {b : Bool} (hf : Fraction fr b)
    (h : Reads p fr q) (hq : Head (fun c => expStart c || delim c) q.rest) :
    parseFraction p = .ret (b, q) := by
  cases hf with
  | none =>
    obtain rfl := h.unique (Reads.refl p)
    have hopt : optional (· == ch '.') q = .ret (false, q) :=
      optional_false hq (apart_byte rfl).symm
    simp [parseFraction, hopt]
  | @some ds hd =>
    obtain ⟨r, hpr, hrq⟩ := Reads.split (u := [ch '.']) h
    have hskip := skipDigits_eq hd hrq hq apart_afterFraction_isdigit
    have hopt : optional (· == ch '.') p = .ret (true, r) := optional_true rfl hpr
    simp [parseFraction, hopt, hskip]

theorem parseExponent_complete {p q : JsonParser} {ex : Bytes} {b : Bool} (he : Exponent ex b)
    (h : Reads p ex q) (hq : Closes ex q.rest) : parseExponent p = .ret (b, q) := by
  cases he with
  | none =>
    obtain rfl := h.unique (Reads.refl p)
    have hopt : optional (fun c => c == ch 'e' || c == ch 'E') q = .ret (false, q) :=
      optional_false hq.head apart_expStart_delim.symm
    simp [parseExponent, hopt]
  | @some e sg ds he hs hd =>
    rw [List.cons_append] at h
    obtain ⟨r, hpr, hrq⟩ := Reads.split (u := [e]) h
    obtain ⟨r', hrr', hr'q⟩ := hrq.split
    have hskip := skipWhile_eq hr'q (digits_iff.mp hd) hq.stops
    have hopt : optional (fun c => c == ch 'e' || c == ch 'E') p = .ret (true, r) :=
      optional_true (by rcases he with rfl | rfl <;> rfl) hpr
    -- the sign is there, or the digits or the delimiter after it are not one; at the end of the
    -- input there is a digit
    have hsign : ∃ s, optional (fun c => c == ch '+' || c == ch '-') r = .ret (s, r') := by
      rcases hs with rfl | rfl | rfl
      · obtain rfl := hrr'.unique (Reads.refl r)
        have hhead : Head (fun c => isdigit c || delim c) r'.rest := by
          rw [hr'q.rest]
          rcases hq with hq | ⟨hq, hlen⟩
          · exact Head.run (digits_iff.mp hd) hq
          · obtain ⟨d, ds, rfl⟩ : ∃ d ds', ds = d :: ds' :=
              List.exists_cons_of_ne_nil fun h => absurd hlen (by simp [h])
            exact ⟨d, _, rfl, by simp [digits_iff.mp hd d List.mem_cons_self]⟩
        exact ⟨false, optional_false hhead ((apart_byte rfl).or (apart_byte rfl)).symm⟩
      · exact ⟨true, optional_true rfl hrr'⟩
      · exact ⟨true, optional_true rfl hrr'⟩
    obtain ⟨s, hsign⟩ := hsign
    simp [parseExponent, hopt, hsign, hskip]

theorem scanNumber_complete {p q : JsonParser} {neg : Bool} {ds fr ex : Bytes} {bf be : Bool}
    (hd : Digits ds) (hf : Fraction fr bf) (he : Exponent ex be)
    (h : Reads p (signed neg ds ++ fr ++ ex) q) (hq : Closes ex q.rest) :
    scanNumber p = .ret (bf || be, q) := by
  obtain ⟨p₂, h2, h3⟩ := h.split
  obtain ⟨p₁, h1, h2⟩ := h2.split
  have hex : Head (fun c => expStart c || delim c) p₂.rest := h3.rest ▸ he.head hq
  have hfr := h2.rest ▸ hf.head hex
  have hsign : ∃ p₀, optional (· == ch '-') p = .ret (neg, p₀) ∧ Reads p₀ ds p₁ := by
    cases neg with
    | true =>
      obtain ⟨p₀, h0, h1⟩ := Reads.split (u := [ch '-']) h1
      exact ⟨p₀, optional_true rfl h0, h1⟩
    | false =>
      have hhead := h1.rest ▸ Head.run (digits_iff.mp hd) hfr
      exact ⟨p, optional_false hhead (apart_byte rfl).symm, h1⟩
  obtain ⟨p₀, hopt, h1⟩ := hsign
  have hskip := skipDigits_eq hd h1 hfr ((apart_byte rfl).or apart_afterFraction_isdigit)
  simp [scanNumber, hopt, hskip, parseFraction_complete hf h2 hex, parseExponent_complete he h3 hq]

/-! ### A number at the end of the input -/

/-- The bytes a number starts with. -/
def numberStart (c : UInt8) : Bool := c == ch '-' || isdigit c

/-- A token at whose end `parse_number` still looks at the next byte: a number without exponent, or
one that breaks off at the `e`. -/
def unended (u : Bytes) : Bool :=
  u.head?.any numberStart && decide ((u.dropWhile fun c => !expStart c).length < 2)

theorem apart_isdigit_expStart : Apart isdigit expStart :=
  Apart.symm ((apart_byte rfl).or (apart_byte rfl))

/-- The part of a token from its first `e` on is its exponent. -/
theorem dropWhile_token {neg : Bool} {ds fr ex : Bytes} {bf be : Bool} (hd : Digits ds)
    (hf : Fraction fr bf) (he : Exponent ex be) :
    ((signed neg ds ++ fr ++ ex).dropWhile fun c => !expStart c) = ex := by
  have hdigits : ∀ {ds : Bytes}, Digits ds → ∀ c ∈ ds, (!expStart c) = true := fun hd c hc => by
    rw [apart_isdigit_expStart c (digits_iff.mp hd c hc)]; rfl
  have hfront : ∀ c ∈ signed neg ds ++ fr, (!expStart c) = true := by
    intro c hc
    rcases List.mem_append.mp hc with hc | hc
    · cases neg with
      | true => exact (List.mem_cons.mp hc).elim (fun h => h ▸ rfl) (hdigits hd c)
      | false => exact hdigits hd c hc
    · cases hf with
      | none => exact absurd hc List.not_mem_nil
      | some hd' => exact (List.mem_cons.mp hc).elim (fun h => h ▸ rfl) (hdigits hd' c)
  rw [List.dropWhile_append_of_pos hfront]
  cases he with
  | none => rfl
  | some hE _ _ => rcases hE with rfl | rfl <;> rfl

theorem unended_token {neg : Bool} {ds fr ex : Bytes} {bf be : Bool} (hd : Digits ds)
    (hf : Fraction fr bf) (he : Exponent ex be)
    (hu : Head numberStart (signed neg ds ++ fr ++ ex)) :
    unended (signed neg ds ++ fr ++ ex) = decide (ex.length < 2) := by
  unfold unended
  rw [dropWhile_token hd hf he]
  obtain ⟨c, s, hcs, hc⟩ := hu
  rw [hcs, List.head?_cons, Option.any_some, hc, Bool.true_and]

/-- What can stand behind the token `u` of a value. -/
def Follows (u t : Bytes) : Prop := Head delim t ∨ (t = [] ∧ unended u = false)

theorem Follows.closes {neg : Bool} {ds fr ex t : Bytes} {bf be : Bool} (hd : Digits ds)
    (hf : Fraction fr bf) (he : Exponent ex be)
    (hu : Head numberStart (signed neg ds ++ fr ++ ex))
    (h : Follows (signed neg ds ++ fr ++ ex) t) : Closes ex t := by
  refine h.imp id fun ⟨ht, hend⟩ => ⟨ht, ?_⟩
  rw [unended_token hd hf he hu] at hend
  exact Nat.not_lt.mp (of_decide_eq_false hend)

section Convert

variable {D : Type} {stod : Bytes → Except ConvError D}

/-- A token without fraction and exponent has neither part. -/
theorem parts_eq_nil {fr ex : Bytes} {bf be : Bool} (hf : Fraction fr bf) (he : Exponent ex be)
    (h : (bf || be) = false) : fr = [] ∧ ex = [] := by
  cases hf with
  | some _ => exact absurd h (by simp)
  | none =>
    cases he with
    | some _ _ _ => exact absurd h (by simp)
    | none => exact ⟨rfl, rfl⟩

/-- A token with a fraction or an exponent that starts with `-` or a digit starts with its sign or
a digit of its integer part. -/
theorem start_of_head {neg : Bool} {ds fr ex t : Bytes} {bf be : Bool} (hf : Fraction fr bf)
    (he : Exponent ex be) (hpart : (bf || be) = true)
    (hhead : Head numberStart (signed neg ds ++ fr ++ ex ++ t)) : neg = true ∨ ds ≠ [] := by
  by_contra hn
  rw [not_or, Bool.not_eq_true, not_not] at hn
  obtain ⟨rfl, rfl⟩ := hn
  obtain ⟨c, s, hcs, hc⟩ := hhead
  cases hf with
  | some _ =>
    obtain rfl := (List.cons.inj hcs).1
    exact absurd hc (by decide)
  | none =>
    cases he with
    | none => exact absurd hpart (by simp)
    | some hE _ _ =>
      obtain rfl := (List.cons.inj hcs).1
      rcases hE with rfl | rfl <;> exact absurd hc (by decide)

/-- `stoll` accepts a sign and digits exactly when they denote a `long long`. -/
theorem number_of_stoll {neg : Bool} {ds : Bytes} (hd : Digits ds) {i : Int64}
    (h : Lib.stoll (signed neg ds) = .ok i) : Number stod (signed neg ds) (.longLong i) := by
  rw [stoll_signed neg (digits_iff.mp hd)] at h
  split at h
  · exact absurd h (by simp)
  · rename_i hne
    split at h
    · rename_i hrange
      obtain rfl := Except.ok.inj h
      exact .longLong hd hne hrange.1 hrange.2
    · exact absurd h (by simp)

/-- The first byte of a token. -/
theorem head_token {neg : Bool} {ds : Bytes} (hd : Digits ds) (hs : neg = true ∨ ds ≠ [])
    (t : Bytes) : Head numberStart (signed neg ds ++ t) := by
  cases neg with
  | true => exact ⟨ch '-', ds ++ t, rfl, rfl⟩
  | false =>
    obtain ⟨c, s, rfl⟩ := List.exists_cons_of_ne_nil (hs.resolve_left (by simp))
    exact ⟨c, s ++ t, rfl, by simp [numberStart, digits_iff.mp hd c List.mem_cons_self]⟩

/-- The first byte of a number token. -/
theorem Number.head {u : Bytes} {v : JsonValue D} (h : Number stod u v) : Head numberStart u := by
  cases h with
  | @longLong neg ds hd hne _ _ =>
    rw [← List.append_nil (signed neg ds)]
    exact head_token hd (.inr hne) []
  | double hd hs _ _ _ _ =>
    rw [List.append_assoc]
    exact head_token hd hs _

theorem parseNumber_sound {p q : JsonParser} {v : JsonValue D}
    (hp : Head numberStart p.rest) (h : parseNumber stod p = .ret (v, q)) :
    ∃ u, Number stod u v ∧ Reads p u q ∧ (q.rest = [] → unended u = false) := by
  obtain ⟨⟨b, q'⟩, hscan, h⟩ := Outcome.bind_eq_ret_iff.mp h
  obtain ⟨v', hconv, h⟩ := Outcome.bind_eq_ret_iff.mp h
  obtain ⟨rfl, rfl⟩ := Prod.mk.inj (Outcome.ret.inj h)
  obtain ⟨neg, ds, fr, ex, bf, be, hd, hf, he, rfl, hr, hend⟩ := scanNumber_sound hscan
  rw [substr_of_reads hr, convert] at hconv
  have hnum : Number stod (signed neg ds ++ fr ++ ex) v' := by
    split at hconv
    · rename_i hpart
      rw [hr.rest] at hp
      split at hconv
      · rename_i d hstod
        obtain rfl := Outcome.ret.inj hconv
        exact .double hd (start_of_head hf he hpart hp) hf he hpart hstod
      · exact absurd hconv (by simp)
    · rename_i hpart
      obtain ⟨rfl, rfl⟩ := parts_eq_nil hf he (by simpa using hpart)
      rw [List.append_nil, List.append_nil] at hconv ⊢
      split at hconv
      · rename_i i hstoll
        obtain rfl := Outcome.ret.inj hconv
        exact number_of_stoll hd hstoll
      · exact absurd hconv (by simp)
  refine ⟨_, hnum, hr, fun hrest => ?_⟩
  rw [unended_token hd hf he hnum.head]
  exact decide_eq_false (Nat.not_lt.mpr (hend hrest))

theorem parseNumber_complete {p q : JsonParser} {u : Bytes} {v : JsonValue D}
    (hu : Number stod u v) (h : Reads p u q) (hq : Follows u q.rest) :
    parseNumber stod p = .ret (v, q) := by
  have hhead := hu.head
  cases hu with
  | @longLong neg ds hd hne hlo hhi =>
    have hnil : signed neg ds = signed neg ds ++ [] ++ [] := by simp
    have hstoll := stoll_signed neg (digits_iff.mp hd)
    rw [if_neg hne, if_pos ⟨hlo, hhi⟩] at hstoll
    have hscan := scanNumber_complete hd .none .none (hnil ▸ h)
      (Follows.closes hd .none .none (hnil ▸ hhead) (hnil ▸ hq))
    simp [parseNumber, hscan, convert, substr_of_reads h, hstoll]
  | @double neg ds fr ex bf be d hd hstart hf he hpart hc =>
    have hconv : convert stod (bf || be) (substr p q) = .ret (.double d) := by
      rw [substr_of_reads h, convert, if_pos hpart, hc]
    have hscan := scanNumber_complete hd hf he h (hq.closes hd hf he hhead)
    simp [parseNumber, hscan, hconv]

end Convert

end CppExamples.Json
