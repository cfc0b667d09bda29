import Morceau.Lib.Turns
import Morceau.Query.Lexing

/-!
# The lexer by index

`lex` of `query/lexer.rs` as the source has it: a loop over byte indices, in which `bytes[i]` and
`&input[a..b]` can panic, the one past the end and the other anywhere but at character boundaries.
A loop that does not end in more turns than there are bytes ends in a fault of its own. The lexer of
`Query/Lexer.lean`, which takes the bytes one after the other and has no indices, is what is left of
it when nothing goes wrong; that nothing does is shown in `Query/LexerSafety.lean`.
-/

set_option autoImplicit false

namespace Morceau.Indexed

open Lib Lexer

/-- How a run of the lexer ends without a value: it returns an error, it panics, or a loop does not
end. -/
inductive Halt where
  | err (e : LexError)
  | panics
  | runsOn
deriving DecidableEq, Repr

/-! ## Indices and slices -/

/-- `bytes[i] as char`. -/
def charAt (cs : List Char) (i : Nat) : Except Halt Char :=
  match cs[i]? with
  | some c => .ok c
  | none => .error .panics

/-- `i < bytes.len() && bytes[i] == ch`. -/
def isAt (cs : List Char) (i : Nat) (ch : Char) : Except Halt Bool :=
  if i < cs.length then do
    let c ← charAt cs i
    pure (c == ch)
  else pure false

/-- `&input[a..b]`. -/
def slice (input : List Char) (a b : Nat) : Except Halt (List Char) :=
  match sliceStr input a b with
  | some s => .ok s
  | none => .error .panics

/-- A turn of `while i < bytes.len() && p(bytes[i]) { i += 1; }`. -/
def skipTurn (p : Char → Bool) (cs : List Char) (i : Nat) : Except Halt (Turn Nat Nat) :=
  if i < cs.length then do
    let c ← charAt cs i
    pure (if p c then .again (i + 1) else .done i)
  else pure (.done i)

/-- The index after that loop. -/
def skipWhile (p : Char → Bool) (cs : List Char) (i : Nat) : Except Halt Nat :=
  loop .runsOn (skipTurn p cs) (cs.length + 1) i

/-! ## Strings and numbers -/

/-- A turn of the loop of `scan_string`, at an index and with the characters so far. -/
def scanStringTurn (start : Nat) (quote : Char) (cs : List Char) :
    Nat × List Char → Except Halt (Turn (Nat × List Char) (List Char × Nat))
  | (i, out) =>
      if i < cs.length then do
        let c ← charAt cs i
        if c = quote then pure (.done (out, i + 1))
        else if c = '\\' then
          if cs.length ≤ i + 1 then throw (.err (.invalidEscape (i + 1 - 1)))
          else do
            match unescape (← charAt cs (i + 1)) with
            | some e => pure (.again (i + 1 + 1, out ++ [e]))
            | none => throw (.err (.invalidEscape (i + 1 - 1)))
        else pure (.again (i + 1, out ++ [c]))
      else throw (.err (.unterminatedString start))

/-- `scan_string`: the text and the index after the closing quote. -/
def scanString (cs : List Char) (start : Nat) (quote : Char) : Except Halt (List Char × Nat) :=
  loop .runsOn (scanStringTurn start quote cs) (cs.length + 1) (start + 1, [])

/-- A minus sign, if there is one, and what follows. -/
def unsigned : List Char → Bool × List Char
  | '-' :: cs => (true, cs)
  | cs => (false, cs)

/-- `str::parse::<i64>` on the texts that `scan_number` gives it. -/
def parseInteger (text : List Char) : Option Int64 :=
  let (neg, ds) := unsigned text
  if ds ≠ [] ∧ ds.all isDigit then parseI64 neg ds else none

/-- `str::parse::<f64>` on the texts that `scan_number` gives it. -/
def parseFloat (text : List Char) : Option F64 :=
  let (neg, cs) := unsigned text
  let ds := cs.takeWhile isDigit
  match cs.drop ds.length with
  | '.' :: frac =>
      if ds ≠ [] ∧ frac ≠ [] ∧ frac.all isDigit then
        some (F64.roundRat neg (digitsValue (ds ++ frac)) (10 ^ frac.length))
      else none
  | _ => none

/-- The end of `scan_number`: the token of the text between two indices, if it parses. -/
def number {α : Type} (input : List Char) (start stop : Nat) (parse : List Char → Option α)
    (token : α → Token) : Except Halt (Token × Nat) := do
  let text ← slice input start stop
  match parse text with
  | some v => pure (token v, stop)
  | none => throw (.err (.invalidNumber start))

/-- `scan_number` after the sign. -/
def scanUnsigned (input : List Char) (start intStart : Nat) : Except Halt (Token × Nat) := do
  let cs := perByteChars input
  let i ← skipWhile isDigit cs intStart
  if i = intStart then throw (.err (.invalidNumber start))
  else if ← isAt cs i '.' then do
    let stop ← skipWhile isDigit cs (i + 1)
    if stop = i + 1 then throw (.err (.invalidNumber start))
    else number input start stop parseFloat .float
  else number input start i parseInteger .integer

/-- `scan_number`: the token and the index after it. -/
def scanNumber (input : List Char) (start : Nat) : Except Halt (Token × Nat) := do
  let c ← charAt (perByteChars input) start
  scanUnsigned input start (if c = '-' then start + 1 else start)

/-! ## The loop over tokens -/

/-- One token at the index `i`, where the byte `c` stands, and the index after it. -/
def token (input : List Char) (i : Nat) (c : Char) : Except Halt (Token × Nat) :=
  let cs := perByteChars input
  match punctuation c with
  | some t => .ok (t, i + 1)
  | none =>
      if c = '=' then do
        pure (.eq, if ← isAt cs (i + 1) '=' then i + 1 + 1 else i + 1)
      else if c = '!' then do
        if ← isAt cs (i + 1) '=' then pure (.notEq, i + 2)
        else throw (.err (.unexpected '!' i))
      else if c = '<' then do
        if ← isAt cs (i + 1) '=' then pure (.ltEq, i + 2) else pure (.lt, i + 1)
      else if c = '>' then do
        if ← isAt cs (i + 1) '=' then pure (.gtEq, i + 2) else pure (.gt, i + 1)
      else if c = '\x22' ∨ c = '\x27' then do
        let (s, stop) ← scanString cs i c
        pure (.string (String.ofList s), stop)
      else if c = '$' then do
        let stop ← skipWhile isIdentContinue cs (i + 1)
        if stop = i + 1 then throw (.err (.unexpected '$' i))
        else do
          let name ← slice input (i + 1) stop
          pure (.param (String.ofList name), stop)
      else if c = '-' then
        if cs[i + 1]? = some '>' then pure (.arrow, i + 2)
        else if (cs[i + 1]?.map isDigit).getD false then scanNumber input i
        else pure (.dash, i + 1)
      else if isDigit c then scanNumber input i
      else if isIdentStart c then do
        let stop ← skipWhile isIdentContinue cs i
        let name ← slice input i stop
        pure (keywordOrIdent name, stop)
      else throw (.err (.unexpected c i))

/-- A turn of the loop of `lex`, at an index and with the tokens so far. -/
def lexTurn (input : List Char) :
    Nat × List Spanned → Except Halt (Turn (Nat × List Spanned) (List Spanned))
  | (i, out) =>
      let cs := perByteChars input
      if i < cs.length then do
        let c ← charAt cs i
        if isWhitespace c then pure (.again (i + 1, out))
        else do
          let (t, stop) ← token input i c
          pure (.again (stop, out ++ [⟨t, i⟩]))
      else pure (.done out)

/-- `lex`. -/
def lex (input : String) : Except Halt (List Spanned) :=
  loop .runsOn (lexTurn input.toList) ((perByteChars input.toList).length + 1) (0, [])

example : lex "a=='é' -1.5" = .ok [⟨.ident "a", 0⟩, ⟨.eq, 1⟩, ⟨.string "Ã©", 3⟩,
    ⟨.float (F64.roundRat true 15 10), 8⟩] := by
  decide +kernel

end Morceau.Indexed
