import Mathlib.Data.List.TakeWhile
import Morceau.Query.IndexedLexer

/-!
# The lexer is safe

The lexer by index returns on every text what the lexer without indices does (`lex_eq`), so it does
not panic and every loop of it ends. Each of the three loops computes a function, in the sense of
`Lib/Turns.lean`: `skipTurn_computes`, `scanStringTurn_computes` and `lexTurn_computes` say what it
comes to and that a turn advances.

The bytes that a name, a parameter or a number is made of are ASCII characters, and so is each quote
and each sign. The slices of the source therefore start and end at boundaries (`slice_ascii`), and
every token ends at one, `AsciiBefore`. Two bytes that are not ASCII characters pass for white
space, but not at a boundary (`isAscii_of_isWhitespace`), and the loop over tokens is always at one
(`tiled_of_lexFrom`).
-/

set_option autoImplicit false

namespace Morceau.Indexed

open Lib Lexer

/-! ## Boundaries in the bytes of a text -/

section Bytes

variable {input : List Char} {k : Nat} {d : Char}

/-- A byte in the ASCII range stands between two boundaries. -/
theorem isBoundary_of_isAscii (h : (perByteChars input)[k]? = some d) (hd : IsAscii d) :
    IsBoundary input k ∧ IsBoundary input (k + 1) := by
  rw [perByteChars, List.getElem?_map] at h
  obtain ⟨b, hb, rfl⟩ := Option.map_eq_some_iff.1 h
  rw [IsAscii, toNat_charOf] at hd
  exact isBoundary_of_ascii hb hd

/-- What looks like white space at a boundary is an ASCII character. -/
theorem isAscii_of_isWhitespace (hk : IsBoundary input k) (h : (perByteChars input)[k]? = some d)
    (hd : isWhitespace d = true) : IsAscii d := by
  rw [perByteChars, List.getElem?_map] at h
  obtain ⟨b, hb, rfl⟩ := Option.map_eq_some_iff.1 h
  rw [isWhitespace, toNat_charOf] at hd
  rw [IsAscii, toNat_charOf]
  -- the other two kinds of white space, 133 and 160, are bytes inside of characters
  rcases ascii_or_lead hk hb with hlt | hge
  · exact hlt
  · simp only [Bool.or_eq_true, Bool.and_eq_true, decide_eq_true_eq, beq_iff_eq] at hd
    omega

/-- Bytes that are all in the ASCII range are the characters of their text. -/
theorem isAscii_of_perByteChars {cs : List Char} (h : ∀ d ∈ perByteChars cs, IsAscii d) :
    ∀ c ∈ cs, IsAscii c := by
  induction cs with
  | nil => exact fun c hc => nomatch hc
  | cons c cs ih =>
      rw [perByteChars_cons] at h
      refine List.forall_mem_cons.2 ⟨?_, ih fun d hd => h d (List.mem_append_right _ hd)⟩
      by_contra hc
      obtain ⟨hlen, hall⟩ := map_charOf_of_not_isAscii hc
      obtain ⟨d, hd⟩ := List.exists_mem_of_length_pos (Nat.lt_of_lt_of_le Nat.zero_lt_two hlen)
      exact hall d hd (h d (List.mem_append_left _ hd))

/-- The byte before the index is in the ASCII range. -/
def AsciiBefore (cs : List Char) (stop : Nat) : Prop :=
  ∃ k d, stop = k + 1 ∧ cs[k]? = some d ∧ IsAscii d

theorem AsciiBefore.isBoundary {stop : Nat} (h : AsciiBefore (perByteChars input) stop) :
    IsBoundary input stop := by
  obtain ⟨k, d, rfl, hd, hascii⟩ := h
  exact (isBoundary_of_isAscii hd hascii).2

/-- ASCII bytes end at an ASCII byte. -/
theorem asciiBefore_append {cs text more : List Char} {a : Nat} (h : cs.drop a = text ++ more)
    (hne : text ≠ []) (hascii : ∀ d ∈ text, IsAscii d) : AsciiBefore cs (a + text.length) := by
  have hpos := List.length_pos_iff.2 hne
  have hlast : cs[a + (text.length - 1)]? = some (text.getLast hne) := by
    rw [← List.getElem?_drop, h, List.getElem?_append_left (by omega), ← List.getLast?_eq_getElem?,
      List.getLast?_eq_getLast_of_ne_nil hne]
  exact ⟨_, _, by omega, hlast, hascii _ (List.getLast_mem hne)⟩

/-- A slice of bytes in the ASCII range does not panic. -/
theorem slice_ascii {a : Nat} {text more : List Char}
    (h : (perByteChars input).drop a = text ++ more) (hne : text ≠ [])
    (hascii : ∀ d ∈ text, IsAscii d) : slice input a (a + text.length) = .ok text := by
  -- the first and the last byte give the two boundaries
  have hstart : IsBoundary input a := by
    obtain ⟨d, ds, rfl⟩ := List.exists_cons_of_ne_nil hne
    have hd : (perByteChars input)[a]? = some d := by
      rw [← List.head?_drop, h]
      rfl
    exact (isBoundary_of_isAscii hd (hascii d (List.mem_cons_self ..))).1
  have hstop := (asciiBefore_append h hne hascii).isBoundary
  obtain ⟨mid, hmid⟩ := Option.isSome_iff_exists.1
    (sliceStr_isSome_iff.2 ⟨Nat.le_add_right a _, hstart, hstop⟩)
  have hbytes : perByteChars mid = text := by
    obtain ⟨-, -, -, hutf8⟩ := sliceStr_eq_some hmid
    have htake : ((perByteChars input).drop a).take text.length = text := by
      rw [h, List.take_left]
    rw [← htake, perByteChars, hutf8, Nat.add_sub_cancel_left, List.map_take, List.map_drop]
    rfl
  have hsame : perByteChars mid = mid :=
    perByteChars_eq_iff.2 (isAscii_of_perByteChars (hbytes ▸ hascii))
  rw [slice, hmid, ← hbytes, hsame]

end Bytes

/-! ## The inner loops -/

section Loops

variable {cs : List Char} {i : Nat}

theorem charAt_of_getElem? {c : Char} (h : cs[i]? = some c) : charAt cs i = .ok c := by
  rw [charAt, h]

/-- The bytes from an index on. -/
theorem drop_eq_cons {c : Char} (hc : cs[i]? = some c) :
    i < cs.length ∧ cs.drop i = c :: cs.drop (i + 1) := by
  obtain ⟨hlt, rfl⟩ := List.getElem?_eq_some_iff.1 hc
  exact ⟨hlt, List.drop_eq_getElem_cons hlt⟩

theorem isAt_eq (cs : List Char) (i : Nat) (ch : Char) :
    isAt cs i ch = .ok (decide ((cs.drop i).head? = some ch)) := by
  rw [isAt, List.head?_drop]
  split
  · rename_i hlt
    rw [List.getElem?_eq_getElem hlt, charAt_of_getElem? (List.getElem?_eq_getElem hlt)]
    show Except.ok _ = Except.ok _
    simp [Bool.beq_eq_decide_eq]
  · rename_i hge
    rw [List.getElem?_eq_none (Nat.le_of_not_lt hge)]
    rfl

/-- The index after the characters from `i` on that satisfy `p`. -/
def afterWhile (p : Char → Bool) (cs : List Char) (i : Nat) : Nat :=
  i + ((cs.drop i).takeWhile p).length

theorem skipTurn_computes (p : Char → Bool) (cs : List Char) (i : Nat) :
    Computes (fun i => .ok (afterWhile p cs i)) id cs.length i (skipTurn p cs i) := by
  rw [skipTurn]
  by_cases hlt : i < cs.length
  case neg =>
    rw [if_neg hlt]
    show Except.ok (afterWhile p cs i) = Except.ok i
    rw [afterWhile, List.drop_eq_nil_of_le (Nat.le_of_not_lt hlt)]
    rfl
  rw [if_pos hlt, charAt_of_getElem? (List.getElem?_eq_getElem hlt), exceptBind_ok]
  have hdrop := List.drop_eq_getElem_cons hlt
  by_cases hp : p cs[i] = true
  · rw [if_pos hp]
    refine ⟨?_, Nat.lt_succ_self i, hlt⟩
    show Except.ok _ = Except.ok _
    rw [afterWhile, afterWhile, hdrop, List.takeWhile_cons_of_pos hp, List.length_cons]
    congr 1
    omega
  · rw [if_neg hp]
    show Except.ok _ = Except.ok _
    rw [afterWhile, hdrop, List.takeWhile_cons_of_neg hp]
    rfl

theorem skipWhile_eq (p : Char → Bool) (hi : i ≤ cs.length) :
    skipWhile p cs i = .ok (afterWhile p cs i) :=
  loop_eq (fun i _ => skipTurn_computes p cs i) _ hi (Nat.lt_succ_of_le (Nat.sub_le _ _))

/-- What `scan_string` ends with from an index and the characters so far, given what it ends with
from there on. -/
def resumed : Nat × List Char → Except LexError (List Char × Nat) → Except Halt (List Char × Nat)
  | (i, out), .ok (s, n) => .ok (out ++ s, i + n)
  | _, .error err => .error (.err err)

theorem resumed_map (i n : Nat) (out : List Char) (c : Char)
    (r : Except LexError (List Char × Nat)) :
    resumed (i, out) (r.map fun s => (c :: s.1, s.2 + n)) = resumed (i + n, out ++ [c]) r := by
  cases r with
  | error err => rfl
  | ok s =>
      show Except.ok _ = Except.ok _
      rw [List.append_cons, Nat.add_comm s.2 n, ← Nat.add_assoc]

theorem scanStringTurn_computes (start : Nat) (quote : Char) (cs : List Char)
    (s : Nat × List Char) :
    Computes (fun s => resumed s (Lexer.scanString start quote s.1 (cs.drop s.1))) Prod.fst
      cs.length s (scanStringTurn start quote cs s) := by
  obtain ⟨i, out⟩ := s
  rw [scanStringTurn]
  by_cases hlt : i < cs.length
  case neg =>
    rw [if_neg hlt]
    show resumed _ _ = _
    rw [List.drop_eq_nil_of_le (Nat.le_of_not_lt hlt)]
    rfl
  rw [if_pos hlt, charAt_of_getElem? (List.getElem?_eq_getElem hlt), exceptBind_ok]
  have hdrop := List.drop_eq_getElem_cons hlt
  generalize cs[i] = c at hdrop ⊢
  by_cases hquote : c = quote
  · -- the closing quote
    subst hquote
    rw [if_pos rfl]
    show resumed _ _ = _
    rw [hdrop, scanString_quote]
    simp [resumed]
  rw [if_neg hquote]
  by_cases hslash : c = '\\'
  case neg =>
    -- a character that stands for itself
    rw [if_neg hslash]
    refine ⟨?_, Nat.lt_succ_self i, hlt⟩
    show resumed _ _ = resumed _ _
    rw [hdrop, scanString_plain hquote hslash, resumed_map]
  -- an escape, which needs a second character
  subst hslash
  rw [if_pos rfl]
  by_cases hend : cs.length ≤ i + 1
  · rw [if_pos hend]
    show resumed _ _ = _
    rw [hdrop, List.drop_eq_nil_of_le hend, Lexer.scanString, if_neg hquote, if_pos rfl]
    rfl
  have hlt' := Nat.lt_of_not_le hend
  rw [if_neg hend, charAt_of_getElem? (List.getElem?_eq_getElem hlt'), exceptBind_ok]
  rw [List.drop_eq_getElem_cons hlt'] at hdrop
  generalize cs[i + 1] = e at hdrop ⊢
  cases hesc : unescape e with
  | none =>
      show resumed _ _ = _
      rw [hdrop, Lexer.scanString, if_neg hquote, if_pos rfl, hesc]
      rfl
  | some d =>
      refine ⟨?_, Nat.lt_add_of_pos_right Nat.zero_lt_two, hlt'⟩
      show resumed _ _ = resumed _ _
      rw [hdrop, scanString_escape hquote hesc, resumed_map]

theorem scanString_eq {start : Nat} (quote : Char) (h : start < cs.length) :
    scanString cs start quote = resumed (start + 1, [])
      (Lexer.scanString start quote (start + 1) (cs.drop (start + 1))) :=
  loop_eq (fun s _ => scanStringTurn_computes start quote cs s) _ h
    (Nat.lt_succ_of_le (Nat.sub_le _ _))

end Loops

/-! ## Tokens -/

theorem isAscii_of_punctuation {c : Char} {t : Token} (h : punctuation c = some t) :
    IsAscii c := by
  unfold punctuation at h
  split at h <;> first | decide | cases h

/-- The lexer by index does at `i` what the other one does there: it fails alike, or reads the same
token and goes on after an ASCII byte. -/
def Agrees (cs : List Char) (i : Nat) (x : Except Halt (Token × Nat)) :
    Except LexError (Token × Nat) → Prop
  | .error err => x = .error (.err err)
  | .ok r => x = .ok (r.1, i + r.2) ∧ AsciiBefore cs (i + r.2)

section Numbers

variable {input : List Char} {start : Nat} {signs : List Char} {neg : Bool}

/-- A sign and digits as `str::parse::<i64>` reads them. -/
theorem parseInteger_signed (hsigns : ∀ xs, (xs.head?.map isDigit) = some true →
      unsigned (signs ++ xs) = (neg, xs)) {ds : List Char} (hne : ds ≠ [])
    (hds : ∀ d ∈ ds, isDigit d = true) : parseInteger (signs ++ ds) = parseI64 neg ds := by
  obtain ⟨d, ds, rfl⟩ := List.exists_cons_of_ne_nil hne
  rw [parseInteger, hsigns _ (by simp [hds d])]
  exact if_pos ⟨hne, List.all_eq_true.2 hds⟩

/-- A sign, digits, a dot and digits as `str::parse::<f64>` reads them. -/
theorem parseFloat_signed (hsigns : ∀ xs, (xs.head?.map isDigit) = some true →
      unsigned (signs ++ xs) = (neg, xs)) {ds frac : List Char} (hne : ds ≠ [])
    (hds : ∀ d ∈ ds, isDigit d = true) (hne' : frac ≠ []) (hfrac : ∀ d ∈ frac, isDigit d = true) :
    parseFloat (signs ++ (ds ++ '.' :: frac)) =
      some (F64.roundRat neg (digitsValue (ds ++ frac)) (10 ^ frac.length)) := by
  have htake : (ds ++ '.' :: frac).takeWhile isDigit = ds := by
    rw [List.takeWhile_append_of_pos hds, List.takeWhile_cons_of_neg (by decide), List.append_nil]
  have hhead : ((ds ++ '.' :: frac).head?.map isDigit) = some true := by
    obtain ⟨d, ds, rfl⟩ := List.exists_cons_of_ne_nil hne
    simp [hds d]
  rw [parseFloat, hsigns _ hhead]
  dsimp only
  rw [htake, List.drop_left]
  exact if_pos ⟨hne, hne', List.all_eq_true.2 hfrac⟩

/-- The end of `scan_number`: a text in the ASCII range that parses. -/
theorem number_agrees {α : Type} {parse : List Char → Option α} {token : α → Token} {v : α}
    {text more : List Char} (h : (perByteChars input).drop start = text ++ more) (hne : text ≠ [])
    (hascii : ∀ d ∈ text, IsAscii d) (hparse : parse text = some v) :
    Agrees (perByteChars input) start (number input start (start + text.length) parse token)
      (.ok (token v, text.length)) := by
  refine ⟨?_, asciiBefore_append h hne hascii⟩
  rw [number, slice_ascii h hne hascii, exceptBind_ok, hparse]
  rfl

/-- `scan_number` at the end of the digits, without a dot. -/
theorem integer_agrees {ds more : List Char} {y : Except LexError (Token × Nat)}
    (htext : (perByteChars input).drop start = (signs ++ ds) ++ more)
    (hascii : ∀ d ∈ signs, IsAscii d)
    (hsigns : ∀ xs, (xs.head?.map isDigit) = some true → unsigned (signs ++ xs) = (neg, xs))
    (hne : ds ≠ []) (hds : ∀ d ∈ ds, isDigit d = true)
    (hsome : ∀ n, parseI64 neg ds = some n → y = .ok (.integer n, signs.length + ds.length))
    (hnone : parseI64 neg ds = none → y = .error (.invalidNumber start)) :
    Agrees (perByteChars input) start
      (number input start (start + signs.length + ds.length) parseInteger .integer) y := by
  have hne' : signs ++ ds ≠ [] := fun h => hne (List.append_eq_nil_iff.1 h).2
  have hall : ∀ d ∈ signs ++ ds, IsAscii d :=
    List.forall_mem_append.2 ⟨hascii, fun d hd => isAscii_of_isDigit (hds d hd)⟩
  have hparse := parseInteger_signed hsigns hne hds
  rw [Nat.add_assoc, ← List.length_append]
  rw [← List.length_append] at hsome
  cases hvalue : parseI64 neg ds with
  | some n =>
      rw [hsome n hvalue]
      exact number_agrees htext hne' hall (hparse.trans hvalue)
  | none =>
      rw [hnone hvalue]
      show number _ _ _ _ _ = _
      rw [number, slice_ascii htext hne' hall, exceptBind_ok, hparse, hvalue]
      rfl

/-- `scan_number` at the end of a fraction. -/
theorem float_agrees {ds frac more : List Char}
    (htext : (perByteChars input).drop start = (signs ++ (ds ++ '.' :: frac)) ++ more)
    (hascii : ∀ d ∈ signs, IsAscii d)
    (hsigns : ∀ xs, (xs.head?.map isDigit) = some true → unsigned (signs ++ xs) = (neg, xs))
    (hne : ds ≠ []) (hds : ∀ d ∈ ds, isDigit d = true) (hne' : frac ≠ [])
    (hfrac : ∀ d ∈ frac, isDigit d = true) :
    Agrees (perByteChars input) start
      (number input start (start + signs.length + ds.length + 1 + frac.length) parseFloat .float)
      (.ok (.float (F64.roundRat neg (digitsValue (ds ++ frac)) (10 ^ frac.length)),
        signs.length + ds.length + 1 + frac.length)) := by
  have hall : ∀ d ∈ signs ++ (ds ++ '.' :: frac), IsAscii d := by
    refine List.forall_mem_append.2 ⟨hascii, List.forall_mem_append.2 ⟨fun d hd => ?_, ?_⟩⟩
    · exact isAscii_of_isDigit (hds d hd)
    · exact List.forall_mem_cons.2 ⟨by decide, fun d hd => isAscii_of_isDigit (hfrac d hd)⟩
  have hlen : (signs ++ (ds ++ '.' :: frac)).length =
      signs.length + ds.length + 1 + frac.length := by
    simp only [List.length_append, List.length_cons]
    omega
  have hstop : start + signs.length + ds.length + 1 + frac.length =
      start + (signs ++ (ds ++ '.' :: frac)).length := by
    rw [hlen]
    omega
  rw [hstop, ← hlen]
  exact number_agrees htext (by simp) hall (parseFloat_signed hsigns hne hds hne' hfrac)

theorem scanUnsigned_agrees (signs : List Char) (neg : Bool)
    (hsplit : (perByteChars input).drop start =
      signs ++ (perByteChars input).drop (start + signs.length))
    (hle : start + signs.length ≤ (perByteChars input).length)
    (hascii : ∀ d ∈ signs, IsAscii d)
    (hsigns : ∀ xs, (xs.head?.map isDigit) = some true → unsigned (signs ++ xs) = (neg, xs)) :
    Agrees (perByteChars input) start (scanUnsigned input start (start + signs.length))
      (Lexer.scanUnsigned start neg signs.length
        ((perByteChars input).drop (start + signs.length))) := by
  set cs := perByteChars input with hcs
  rw [scanUnsigned, Lexer.scanUnsigned]
  dsimp only
  rw [← hcs, skipWhile_eq _ hle, exceptBind_ok, afterWhile]
  -- the digits, and what follows them
  obtain ⟨rest, hrest⟩ : ∃ rest, rest = cs.drop (start + signs.length) := ⟨_, rfl⟩
  obtain ⟨ds, hds⟩ : ∃ ds, ds = rest.takeWhile isDigit := ⟨_, rfl⟩
  obtain ⟨more, hmore⟩ : ∃ more, more = cs.drop (start + signs.length + ds.length) := ⟨_, rfl⟩
  have hdigits : ∀ d ∈ ds, isDigit d = true := fun d hd => List.mem_takeWhile_imp (hds ▸ hd)
  have hdrop : rest.drop ds.length = more := by
    rw [hrest, List.drop_drop, hmore]
  have happ : rest = ds ++ more := by
    rw [← hdrop, hds, List.prefix_iff_eq_append.1 (List.takeWhile_prefix _)]
  rw [← hrest] at hsplit ⊢
  rw [← hds, hdrop]
  by_cases hne : ds = []
  · rw [if_pos (by simp [hne]), if_pos (by simp [hne])]
    rfl
  rw [if_neg (by have := List.length_pos_iff.2 hne; omega), if_neg (by simpa using hne), isAt_eq,
    exceptBind_ok, ← hmore]
  cases hdot : afterDot more with
  | none =>
      have hhead : ¬ more.head? = some '.' := by
        intro hhead
        obtain ⟨after, rfl⟩ := List.head?_eq_some_iff.1 hhead
        cases hdot
      have htext : cs.drop start = (signs ++ ds) ++ more := by
        rw [hsplit, happ, List.append_assoc]
      rw [if_neg (by simp [hhead])]
      exact integer_agrees htext hascii hsigns hne hdigits (fun n hn => by rw [hn])
        (fun hn => by rw [hn])
  | some after =>
      obtain rfl := eq_cons_of_afterDot hdot
      have hlt : start + signs.length + ds.length < cs.length := by
        by_contra hge
        rw [List.drop_eq_nil_of_le (Nat.le_of_not_lt hge)] at hmore
        cases hmore
      have hafter : cs.drop (start + signs.length + ds.length + 1) = after := by
        rw [← List.drop_drop, ← hmore]
        rfl
      rw [if_pos (by simp), skipWhile_eq _ hlt, exceptBind_ok, afterWhile, hafter]
      dsimp only
      obtain ⟨frac, hfrac⟩ : ∃ frac, frac = after.takeWhile isDigit := ⟨_, rfl⟩
      have hdigits' : ∀ d ∈ frac, isDigit d = true :=
        fun d hd => List.mem_takeWhile_imp (hfrac ▸ hd)
      rw [← hfrac]
      by_cases hne' : frac = []
      · rw [if_pos (by simp [hne']), if_pos (by simp [hne'])]
        rfl
      rw [if_neg (by have := List.length_pos_iff.2 hne'; omega), if_neg (by simpa using hne')]
      have htext : cs.drop start =
          (signs ++ (ds ++ '.' :: frac)) ++ after.drop frac.length := by
        rw [hsplit, happ, List.append_assoc, List.append_assoc, List.cons_append, hfrac,
          List.prefix_iff_eq_append.1 (List.takeWhile_prefix _)]
      exact float_agrees htext hascii hsigns hne hdigits hne' hdigits'

theorem scanNumber_agrees {c : Char} (hc : (perByteChars input)[start]? = some c) :
    Agrees (perByteChars input) start (scanNumber input start)
      (Lexer.scanNumber start ((perByteChars input).drop start)) := by
  obtain ⟨hlt, hdrop⟩ := drop_eq_cons hc
  rw [scanNumber, charAt_of_getElem? hc, exceptBind_ok, scanNumber_eq, hdrop, List.head?_cons]
  by_cases hneg : c = '-'
  · subst hneg
    exact scanUnsigned_agrees ['-'] true hdrop hlt (by simp [IsAscii]) fun xs _ => rfl
  · have hbeq : (some c == some '-') = false := by simpa using hneg
    rw [if_neg hneg, hbeq, if_neg Bool.false_ne_true, List.drop_zero, ← hdrop]
    refine scanUnsigned_agrees [] false rfl hlt.le (by simp) fun xs hxs => ?_
    -- what begins with a digit does not begin with a sign
    cases xs with
    | nil => cases hxs
    | cons d xs =>
        rw [List.nil_append, unsigned]
        rintro cs ⟨⟩
        cases hxs

end Numbers

namespace Agrees

variable {cs : List Char} {i : Nat} {x x' : Except Halt (Token × Nat)}
  {y y' : Except LexError (Token × Nat)}

theorem ite {p : Prop} [Decidable p] (h : p → Agrees cs i x y) (h' : Agrees cs i x' y') :
    Agrees cs i (if p then x else x') (if p then y else y') := by
  by_cases hp : p
  · rw [if_pos hp, if_pos hp]
    exact h hp
  · rw [if_neg hp, if_neg hp]
    exact h'

/-- A token of two characters, if the second is there. -/
theorem pair {ch : Char} (hch : IsAscii ch) (t : Token) (h : Agrees cs i x y) :
    Agrees cs i (isAt cs (i + 1) ch >>= fun second => if second then pure (t, i + 2) else x)
      (if (cs.drop (i + 1)).head? = some ch then .ok (t, 2) else y) := by
  rw [isAt_eq, exceptBind_ok]
  by_cases hhead : (cs.drop (i + 1)).head? = some ch
  · rw [if_pos hhead, if_pos (decide_eq_true hhead)]
    rw [List.head?_drop] at hhead
    exact ⟨rfl, i + 1, ch, rfl, hhead, hch⟩
  · rw [if_neg hhead, if_neg (mt of_decide_eq_true hhead)]
    exact h

theorem string {quote : Char} (hquote : IsAscii quote) (hlt : i < cs.length) :
    Agrees cs i
      (scanString cs i quote >>= fun r => pure (.string (String.ofList r.1), r.2))
      (Lexer.scanString i quote (i + 1) (cs.drop (i + 1)) >>= fun r =>
        pure (.string (String.ofList r.1), r.2 + 1)) := by
  rw [scanString_eq quote hlt]
  cases hscan : Lexer.scanString i quote (i + 1) (cs.drop (i + 1)) with
  | error err => rfl
  | ok r =>
      obtain ⟨⟨k, hk, hend⟩, -⟩ := scanString_spec hscan
      rw [List.getElem?_drop] at hend
      refine ⟨?_, i + 1 + k, quote, ?_, hend, hquote⟩
      · show Except.ok _ = Except.ok _
        rw [List.nil_append, Nat.add_right_comm, Nat.add_assoc]
      · show i + (r.2 + 1) = _
        omega

variable {input : List Char}

/-- The characters that a loop skipped, as a slice. -/
theorem slice_takeWhile {p : Char → Bool} (hp : ∀ {d}, p d = true → IsAscii d) {a : Nat}
    {text : List Char} (htext : ((perByteChars input).drop a).takeWhile p = text)
    (hne : text ≠ []) :
    slice input a (a + text.length) = .ok text ∧
      AsciiBefore (perByteChars input) (a + text.length) := by
  have hsplit : (perByteChars input).drop a =
      text ++ ((perByteChars input).drop a).drop text.length := by
    rw [← htext, List.prefix_iff_eq_append.1 (List.takeWhile_prefix _)]
  have hascii : ∀ d ∈ text, IsAscii d := fun d hd => hp (List.mem_takeWhile_imp (htext ▸ hd))
  exact ⟨slice_ascii hsplit hne hascii, asciiBefore_append hsplit hne hascii⟩

theorem param (hlt : i < (perByteChars input).length) {name : List Char}
    (hname : ((perByteChars input).drop (i + 1)).takeWhile isIdentContinue = name) :
    Agrees (perByteChars input) i
      (skipWhile isIdentContinue (perByteChars input) (i + 1) >>= fun stop =>
        if stop = i + 1 then throw (.err (.unexpected '$' i))
        else slice input (i + 1) stop >>= fun name => pure (.param (String.ofList name), stop))
      (if name.isEmpty then .error (.unexpected '$' i)
      else .ok (.param (String.ofList name), 1 + name.length)) := by
  rw [skipWhile_eq _ hlt, exceptBind_ok, afterWhile, hname]
  by_cases hne : name = []
  · rw [if_pos (by simp [hne]), if_pos (by simp [hne])]
    rfl
  obtain ⟨hslice, hbefore⟩ := slice_takeWhile isAscii_of_isIdentContinue hname hne
  rw [if_neg (by have := List.length_pos_iff.2 hne; omega), if_neg (by simpa using hne), hslice,
    exceptBind_ok]
  rw [Nat.add_assoc] at hbefore
  refine ⟨?_, hbefore⟩
  show Except.ok _ = Except.ok _
  rw [Nat.succ_eq_add_one, Nat.add_assoc]

theorem name {c : Char} (hc : (perByteChars input)[i]? = some c) (hstart : isIdentStart c = true)
    {name : List Char}
    (hname : (c :: (perByteChars input).drop (i + 1)).takeWhile isIdentContinue = name) :
    Agrees (perByteChars input) i
      (skipWhile isIdentContinue (perByteChars input) i >>= fun stop =>
        slice input i stop >>= fun name => pure (keywordOrIdent name, stop))
      (.ok (keywordOrIdent name, name.length)) := by
  obtain ⟨hlt, hdrop⟩ := drop_eq_cons hc
  have hne : name ≠ [] := by
    rw [← hname, List.takeWhile_cons_of_pos (isIdentContinue_of_isIdentStart hstart)]
    exact List.cons_ne_nil _ _
  rw [← hdrop] at hname
  obtain ⟨hslice, hbefore⟩ := slice_takeWhile isAscii_of_isIdentContinue hname hne
  rw [skipWhile_eq _ hlt.le, exceptBind_ok, afterWhile, hname, hslice, exceptBind_ok]
  exact ⟨rfl, hbefore⟩

end Agrees

/-- A token is read by index as it is read from the bytes. -/
theorem token_agrees {input : List Char} {i : Nat} {c : Char}
    (hc : (perByteChars input)[i]? = some c) :
    Agrees (perByteChars input) i (token input i c)
      (lexToken i c ((perByteChars input).drop (i + 1))) := by
  obtain ⟨hlt, hdrop⟩ := drop_eq_cons hc
  have hone : ∀ t, IsAscii c → Agrees (perByteChars input) i (pure (t, i + 1)) (.ok (t, 1)) :=
    fun t hascii => ⟨rfl, i, c, rfl, hc, hascii⟩
  have hnumber : Agrees (perByteChars input) i (scanNumber input i)
      (Lexer.scanNumber i (c :: (perByteChars input).drop (i + 1))) := by
    rw [← hdrop]
    exact scanNumber_agrees hc
  unfold token lexToken
  cases hp : punctuation c with
  | some t => exact hone t (isAscii_of_punctuation hp)
  | none =>
      dsimp only
      refine .ite (fun h => ?_) <| .ite (fun h => .pair (by decide) .notEq rfl) <|
        .ite (fun h => .pair (by decide) .ltEq (hone .lt (h ▸ by decide))) <|
        .ite (fun h => .pair (by decide) .gtEq (hone .gt (h ▸ by decide))) <|
        .ite (fun h => .string (by rcases h with rfl | rfl <;> decide) hlt) <|
        .ite (fun h => .param hlt rfl) <| .ite (fun h => ?_) <| .ite (fun h => hnumber) <|
        .ite (fun h => .name hc h rfl) rfl
      -- `==` is read as `=`
      · rw [isAt_eq, exceptBind_ok]
        by_cases hhead : ((perByteChars input).drop (i + 1)).head? = some '='
        · rw [if_pos hhead, if_pos (decide_eq_true hhead)]
          rw [List.head?_drop] at hhead
          exact ⟨rfl, i + 1, '=', rfl, hhead, by decide⟩
        · rw [if_neg hhead, if_neg (mt of_decide_eq_true hhead)]
          exact hone .eq (h ▸ by decide)
      -- an arrow, a negative number or a dash
      · rw [List.head?_drop]
        exact .ite (fun hgt => ⟨rfl, i + 1, '>', rfl, hgt, by decide⟩) <|
          .ite (fun _ => hnumber) (hone .dash (h ▸ by decide))

/-! ## The loop over tokens -/

/-- What `lex` ends with after the tokens so far, given what it makes of the rest. -/
def collected (out : List Spanned) :
    Except LexError (List Spanned) → Except Halt (List Spanned)
  | .ok ts => .ok (out ++ ts)
  | .error err => .error (.err err)

/-- The loop of `lex` at the index of a byte. -/
theorem lexFrom_drop {cs : List Char} {i : Nat} {c : Char} (hc : cs[i]? = some c) :
    lexFrom i (cs.drop i) =
      if isWhitespace c then lexFrom (i + 1) (cs.drop (i + 1))
      else lexToken i c (cs.drop (i + 1)) >>= fun r =>
        lexFrom (i + r.2) (cs.drop (i + r.2)) >>= fun out => pure (⟨r.1, i⟩ :: out) := by
  obtain ⟨-, hdrop⟩ := drop_eq_cons hc
  by_cases hspace : isWhitespace c = true
  · rw [if_pos hspace, hdrop, lexFrom_space hspace]
  · rw [if_neg hspace, hdrop, lexFrom_token hspace, ← hdrop]
    simp only [List.drop_drop]

theorem lexTurn_computes (input : List Char) (s : Nat × List Spanned) :
    Computes (fun s => collected s.2 (lexFrom s.1 ((perByteChars input).drop s.1))) Prod.fst
      (perByteChars input).length s (lexTurn input s) := by
  obtain ⟨i, out⟩ := s
  rw [lexTurn]
  dsimp only
  by_cases hlt : i < (perByteChars input).length
  case neg =>
    rw [if_neg hlt]
    show collected _ _ = _
    rw [List.drop_eq_nil_of_le (Nat.le_of_not_lt hlt), lexFrom_nil]
    simp [collected]
  have hc := List.getElem?_eq_getElem hlt
  rw [if_pos hlt, charAt_of_getElem? hc, exceptBind_ok]
  generalize (perByteChars input)[i] = c at hc ⊢
  by_cases hspace : isWhitespace c = true
  · rw [if_pos hspace]
    refine ⟨?_, Nat.lt_succ_self i, hlt⟩
    show collected _ _ = collected _ _
    rw [lexFrom_drop hc, if_pos hspace]
  rw [if_neg hspace]
  -- the token at `i` is the one that the lexer on lists reads there
  have hagrees := token_agrees hc
  cases htoken : lexToken i c ((perByteChars input).drop (i + 1)) with
  | error err =>
      rw [htoken] at hagrees
      rw [hagrees]
      show collected _ _ = _
      rw [lexFrom_drop hc, if_neg hspace, htoken]
      rfl
  | ok r =>
      rw [htoken] at hagrees
      obtain ⟨hread, -⟩ := hagrees
      obtain ⟨hpos, hbound⟩ := (steady_lexToken c i _ r.1 r.2 htoken).1
      rw [List.length_drop] at hbound
      rw [hread, exceptBind_ok]
      refine ⟨?_, ?_, ?_⟩
      · show collected _ _ = collected _ _
        rw [lexFrom_drop hc, if_neg hspace, htoken, exceptBind_ok]
        cases lexFrom (i + r.2) ((perByteChars input).drop (i + r.2)) with
        | error err => rfl
        | ok ts =>
            show Except.ok _ = Except.ok _
            rw [List.append_cons]
      · show i < i + r.2
        omega
      · show i + r.2 ≤ _
        omega

theorem lex_eq (input : String) : lex input = collected [] (Morceau.lex input) :=
  loop_eq (fun s _ => lexTurn_computes input.toList s) _ (Nat.zero_le _) (Nat.lt_succ_self _)

theorem lex_eq_ok_iff {input : String} {ts : List Spanned} :
    lex input = .ok ts ↔ Morceau.lex input = .ok ts := by
  rw [lex_eq]
  cases Morceau.lex input with
  | ok ts' => simp [collected]
  | error err => simp [collected]

/-! ## Tokens and white space -/

/-- White space in the ASCII range stands at every byte from `i` up to `stop`. -/
def SpaceBetween (input : List Char) (i stop : Nat) : Prop :=
  ∀ k d, i ≤ k → k < stop → (perByteChars input)[k]? = some d →
    isWhitespace d = true ∧ IsAscii d

theorem spaceBetween_self (input : List Char) (i : Nat) : SpaceBetween input i i :=
  fun _ _ hle hlt => absurd hlt (Nat.not_lt.2 hle)

theorem SpaceBetween.cons {input : List Char} {i stop : Nat} {c : Char}
    (hc : (perByteChars input)[i]? = some c) (hspace : isWhitespace c = true) (hascii : IsAscii c)
    (h : SpaceBetween input (i + 1) stop) : SpaceBetween input i stop := by
  intro k d hle hlt hd
  rcases Nat.eq_or_lt_of_le hle with rfl | hlt'
  · obtain rfl := Option.some.inj (hc.symm.trans hd)
    exact ⟨hspace, hascii⟩
  · exact h k d hlt' hlt hd

/-- From the index `i` on, the text is the tokens one after the other with white space between
them: each starts and ends at a boundary, and is what is read where it starts. -/
inductive Tiled (input : List Char) : Nat → List Spanned → Prop where
  | done {i : Nat} (space : SpaceBetween input i (perByteChars input).length) : Tiled input i []
  | token {i stop : Nat} {t : Spanned} {c : Char} {ts : List Spanned} (le : i ≤ t.offset)
      (space : SpaceBetween input i t.offset) (start : IsBoundary input t.offset)
      (first : (perByteChars input)[t.offset]? = some c)
      (read : token input t.offset c = .ok (t.token, stop)) (lt : t.offset < stop)
      (stops : IsBoundary input stop) (rest : Tiled input stop ts) : Tiled input i (t :: ts)

namespace Tiled

variable {input : List Char} {i : Nat} {ts : List Spanned}

theorem space_cons {c : Char} (hc : (perByteChars input)[i]? = some c)
    (hspace : isWhitespace c = true) (hascii : IsAscii c) (h : Tiled input (i + 1) ts) :
    Tiled input i ts := by
  cases h with
  | done space => exact .done (space.cons hc hspace hascii)
  | token le space start first read lt stops rest =>
      exact .token (Nat.le_of_succ_le le) (space.cons hc hspace hascii) start first read lt stops
        rest

theorem offset_of_mem (h : Tiled input i ts) :
    ∀ t ∈ ts, i ≤ t.offset ∧ IsBoundary input t.offset := by
  induction h with
  | done => exact fun t ht => nomatch ht
  | token le space start first read lt stops rest ih =>
      refine List.forall_mem_cons.2 ⟨⟨le, start⟩, fun t ht => ?_⟩
      obtain ⟨hle, hboundary⟩ := ih t ht
      exact ⟨by omega, hboundary⟩

theorem increasing (h : Tiled input i ts) : (ts.map Spanned.offset).Pairwise (· < ·) := by
  induction h with
  | done => exact List.Pairwise.nil
  | token le space start first read lt stops rest ih =>
      refine List.pairwise_cons.2 ⟨fun offset hoffset => ?_, ih⟩
      obtain ⟨t, ht, rfl⟩ := List.mem_map.1 hoffset
      have hle := (rest.offset_of_mem t ht).1
      omega

end Tiled

/-- The loop keeps to boundaries: white space there is one byte, and a token ends after an ASCII
byte. -/
theorem tiled_of_lexFrom {input : List Char} (len : Nat) : ∀ {i : Nat} {ts : List Spanned},
    (perByteChars input).length - i ≤ len → IsBoundary input i →
      lexFrom i ((perByteChars input).drop i) = .ok ts → Tiled input i ts := by
  induction len with
  | zero =>
      intro i ts hlen _ h
      rw [List.drop_eq_nil_of_le (by omega), lexFrom_nil] at h
      cases h
      exact .done fun k d hle hlt => absurd hlt (by omega)
  | succ len ih =>
      intro i ts hlen hi h
      by_cases hlt : i < (perByteChars input).length
      case neg => exact ih (by omega) hi h
      have hc := List.getElem?_eq_getElem hlt
      generalize (perByteChars input)[i] = c at hc
      rw [lexFrom_drop hc] at h
      by_cases hspace : isWhitespace c = true
      · rw [if_pos hspace] at h
        have hascii := isAscii_of_isWhitespace hi hc hspace
        exact (ih (by omega) (isBoundary_of_isAscii hc hascii).2 h).space_cons hc hspace hascii
      · rw [if_neg hspace] at h
        obtain ⟨r, htoken, h⟩ := exceptBind_eq_ok_iff.1 h
        obtain ⟨rest, hrest, h⟩ := exceptBind_eq_ok_iff.1 h
        cases h
        obtain ⟨hpos, -⟩ := (steady_lexToken c i _ r.1 r.2 htoken).1
        have hagrees := token_agrees hc
        rw [htoken] at hagrees
        obtain ⟨hread, hbefore⟩ := hagrees
        refine .token (Nat.le_refl i) (spaceBetween_self input i) hi hc hread ?_
          hbefore.isBoundary (ih (by omega) hbefore.isBoundary hrest)
        show i < i + r.2
        omega

/-- A slice panics unless it is between two boundaries in order. -/
theorem slice_ne_panics_iff {input : List Char} {a b : Nat} :
    slice input a b ≠ .error .panics ↔
      a ≤ b ∧ b ≤ (perByteChars input).length ∧ IsBoundary input a ∧ IsBoundary input b := by
  have hinside : IsBoundary input b → b ≤ (perByteChars input).length := by
    intro hb
    rw [perByteChars, List.length_map]
    exact hb.le
  have hsome : (sliceStr input a b).isSome = true ↔
      a ≤ b ∧ b ≤ (perByteChars input).length ∧ IsBoundary input a ∧ IsBoundary input b := by
    rw [sliceStr_isSome_iff]
    exact ⟨fun h => ⟨h.1, hinside h.2.2, h.2⟩, fun h => ⟨h.1, h.2.2⟩⟩
  rw [← hsome, slice]
  cases sliceStr input a b with
  | none => simp
  | some s => simp

/-- The lexer on any text. It returns, with tokens or with an error, and neither an index nor a
slice, which panics anywhere but between two boundaries, stops it; it is the lexer without indices.
Every turn of its three loops advances, and not past the end. The tokens are at increasing
boundaries, and between them is white space. -/
theorem lex_is_safe (input : String) :
    ((∃ ts, lex input = .ok ts ∧ Morceau.lex input = .ok ts) ∨
      ∃ err, lex input = .error (.err err) ∧ Morceau.lex input = .error err) ∧
    (∀ a b, slice input.toList a b ≠ .error .panics ↔
      a ≤ b ∧ b ≤ (perByteChars input.toList).length ∧ IsBoundary input.toList a ∧
        IsBoundary input.toList b) ∧
    ((∀ p i i', skipTurn p (perByteChars input.toList) i = .ok (.again i') →
        i < i' ∧ i' ≤ (perByteChars input.toList).length) ∧
      (∀ start quote s s', scanStringTurn start quote (perByteChars input.toList) s =
          .ok (.again s') → s.1 < s'.1 ∧ s'.1 ≤ (perByteChars input.toList).length) ∧
      (∀ s s', lexTurn input.toList s = .ok (.again s') →
        s.1 < s'.1 ∧ s'.1 ≤ (perByteChars input.toList).length)) ∧
    ∀ ts, lex input = .ok ts →
      (ts.map Spanned.offset).Pairwise (· < ·) ∧
      (∀ t ∈ ts, IsBoundary input.toList t.offset) ∧
      Tiled input.toList 0 ts := by
  refine ⟨?_, fun a b => slice_ne_panics_iff, ⟨?_, ?_, ?_⟩, ?_⟩
  · rw [lex_eq]
    cases Morceau.lex input with
    | ok ts => exact .inl ⟨ts, rfl, rfl⟩
    | error err => exact .inr ⟨err, rfl, rfl⟩
  · intro p i i' h
    exact (skipTurn_computes p _ i).advances h
  · intro start quote s s' h
    exact (scanStringTurn_computes start quote _ s).advances h
  · intro s s' h
    exact (lexTurn_computes _ s).advances h
  · intro ts h
    have htiled : Tiled input.toList 0 ts :=
      tiled_of_lexFrom _ (Nat.le_refl _) (isBoundary_zero _) (lex_eq_ok_iff.1 h)
    exact ⟨htiled.increasing, fun t ht => (htiled.offset_of_mem t ht).2, htiled⟩

end Morceau.Indexed
