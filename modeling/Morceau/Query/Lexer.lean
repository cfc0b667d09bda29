import Morceau.Lib.Wire
import Morceau.Data.Value

/-!
# The tokenizer

`lex` of `query/lexer.rs`. The source walks the UTF-8 bytes of the query and reads each byte as the
character with that code, so every test is a test of a byte and a string literal collects one
character per byte. A turn of the loop skips one byte of white space or reads one token; `lexToken`
reads a token and says how many bytes it took, which is at least one, so as many turns as there are
bytes are enough.
-/

set_option autoImplicit false

namespace Morceau

open Lib

/-- `Token`. The keywords that Lean has too end in `Kw`. -/
inductive Token where
  | create
  | matchKw
  | merge
  | whereKw
  | returnKw
  | delete
  | detach
  | limit
  | order
  | byKw
  | asc
  | desc
  | and
  | or
  | not
  | trueKw
  | falseKw
  | null
  | ident (name : String)
  | param (name : String)
  | integer (n : Int64)
  | float (x : F64)
  | string (s : String)
  | lParen
  | rParen
  | lBrace
  | rBrace
  | lBracket
  | rBracket
  | comma
  | colon
  | dot
  | arrow
  | dash
  | eq
  | notEq
  | lt
  | gt
  | ltEq
  | gtEq
deriving DecidableEq, Repr

/-- `Spanned`: a token and the byte offset it starts at. -/
structure Spanned where
  token : Token
  offset : Nat
deriving DecidableEq, Repr

/-- `LexError`. -/
inductive LexError where
  | unexpected (ch : Char) (offset : Nat)
  | unterminatedString (offset : Nat)
  | invalidEscape (offset : Nat)
  | invalidNumber (offset : Nat)
deriving DecidableEq, Repr

namespace Lexer

/-- `byte as char`. -/
def charOf (b : UInt8) : Char := Char.ofNat b.toNat

/-- `char::is_whitespace` on the characters that a byte can be. -/
def isWhitespace (c : Char) : Bool :=
  (9 ≤ c.toNat && c.toNat ≤ 13) || c.toNat == 32 || c.toNat == 133 || c.toNat == 160

/-- `is_ascii_digit`. -/
def isDigit (c : Char) : Bool := '0' ≤ c && c ≤ '9'

/-- `is_ascii_alphabetic`. -/
def isAlpha (c : Char) : Bool := ('a' ≤ c && c ≤ 'z') || ('A' ≤ c && c ≤ 'Z')

/-- `is_ident_start`. -/
def isIdentStart (c : Char) : Bool := isAlpha c || c == '_'

/-- `is_ident_continue`. -/
def isIdentContinue (c : Char) : Bool := isAlpha c || isDigit c || c == '_'

/-- `to_ascii_uppercase`. -/
def toAsciiUppercase (c : Char) : Char :=
  if 'a' ≤ c && c ≤ 'z' then Char.ofNat (c.toNat - 32) else c

/-- `keyword_or_ident`: keywords are read in any letter case. -/
def keywordOrIdent (s : List Char) : Token :=
  match String.ofList (s.map toAsciiUppercase) with
  | "CREATE" => .create
  | "MATCH" => .matchKw
  | "MERGE" => .merge
  | "WHERE" => .whereKw
  | "RETURN" => .returnKw
  | "DELETE" => .delete
  | "DETACH" => .detach
  | "LIMIT" => .limit
  | "ORDER" => .order
  | "BY" => .byKw
  | "ASC" => .asc
  | "DESC" => .desc
  | "AND" => .and
  | "OR" => .or
  | "NOT" => .not
  | "TRUE" => .trueKw
  | "FALSE" => .falseKw
  | "NULL" => .null
  | _ => .ident (String.ofList s)

/-- The character an escape stands for. -/
def unescape : Char → Option Char
  | '\\' => some '\\'
  | '\x27' => some '\x27'
  | '\x22' => some '\x22'
  | 'n' => some '\n'
  | 't' => some '\t'
  | _ => none

/-- The loop of `scan_string` from offset `i` on: the characters up to the closing quote, and the
number of bytes read. -/
def scanString (start : Nat) (quote : Char) :
    Nat → List Char → Except LexError (List Char × Nat)
  | _, [] => .error (.unterminatedString start)
  | i, c :: cs =>
      if c = quote then .ok ([], 1)
      else if c = '\\' then
        match cs with
        | [] => .error (.invalidEscape i)
        | e :: cs =>
            match unescape e with
            | none => .error (.invalidEscape i)
            | some c => do
                let (out, n) ← scanString start quote (i + 2) cs
                pure (c :: out, n + 2)
      else do
        let (out, n) ← scanString start quote (i + 1) cs
        pure (c :: out, n + 1)

/-- The number a list of digits stands for. -/
def digitsValue (ds : List Char) : Nat := ds.foldl (fun n c => 10 * n + (c.toNat - 48)) 0

/-- `str::parse::<i64>` on an optional minus sign and digits. -/
def parseI64 (neg : Bool) (ds : List Char) : Option Int64 :=
  let n : Int := if neg then -(digitsValue ds : Int) else digitsValue ds
  if -2 ^ 63 ≤ n ∧ n < 2 ^ 63 then some (Int64.ofInt n) else none

/-- `scan_number`: the token and the number of bytes read. -/
def scanNumber (start : Nat) (cs : List Char) : Except LexError (Token × Nat) :=
  let neg := cs.head? == some '-'
  let sign := if neg then 1 else 0
  let ds := (cs.drop sign).takeWhile isDigit
  if ds.isEmpty then .error (.invalidNumber start)
  else
    match (cs.drop sign).drop ds.length with
    | '.' :: rest =>
        let frac := rest.takeWhile isDigit
        if frac.isEmpty then .error (.invalidNumber start)
        else
          .ok (.float (F64.roundRat neg (digitsValue (ds ++ frac)) (10 ^ frac.length)),
            sign + ds.length + 1 + frac.length)
    | _ =>
        match parseI64 neg ds with
        | some n => .ok (.integer n, sign + ds.length)
        | none => .error (.invalidNumber start)

/-- The tokens that are one character, whatever follows. -/
def punctuation : Char → Option Token
  | '(' => some .lParen
  | ')' => some .rParen
  | '\x7b' => some .lBrace
  | '\x7d' => some .rBrace
  | '[' => some .lBracket
  | ']' => some .rBracket
  | ',' => some .comma
  | ':' => some .colon
  | '.' => some .dot
  | _ => none

/-- One token at offset `start`, from the character `c` and what follows it, and the number of bytes
it took. -/
def lexToken (start : Nat) (c : Char) (cs : List Char) : Except LexError (Token × Nat) :=
  match punctuation c with
  | some t => .ok (t, 1)
  | none =>
      if c = '=' then .ok (.eq, if cs.head? = some '=' then 2 else 1)
      else if c = '!' then
        if cs.head? = some '=' then .ok (.notEq, 2) else .error (.unexpected '!' start)
      else if c = '<' then
        if cs.head? = some '=' then .ok (.ltEq, 2) else .ok (.lt, 1)
      else if c = '>' then
        if cs.head? = some '=' then .ok (.gtEq, 2) else .ok (.gt, 1)
      else if c = '\x22' ∨ c = '\x27' then do
        let (s, n) ← scanString start c (start + 1) cs
        pure (.string (String.ofList s), n + 1)
      else if c = '$' then
        let name := cs.takeWhile isIdentContinue
        if name.isEmpty then .error (.unexpected '$' start)
        else .ok (.param (String.ofList name), 1 + name.length)
      else if c = '-' then
        if cs.head? = some '>' then .ok (.arrow, 2)
        else if (cs.head?.map isDigit).getD false then scanNumber start (c :: cs)
        else .ok (.dash, 1)
      else if isDigit c then scanNumber start (c :: cs)
      else if isIdentStart c then
        let name := (c :: cs).takeWhile isIdentContinue
        .ok (keywordOrIdent name, name.length)
      else .error (.unexpected c start)

/-- The loop of `lex` at offset `i`, with `fuel` for the bytes left. -/
def lexLoop : Nat → Nat → List Char → Except LexError (List Spanned)
  | _, _, [] => .ok []
  | 0, _, _ :: _ => .ok []
  | fuel + 1, i, c :: cs =>
      if isWhitespace c then lexLoop fuel (i + 1) cs
      else do
        let (token, n) ← lexToken i c cs
        let out ← lexLoop fuel (i + n) ((c :: cs).drop n)
        pure (⟨token, i⟩ :: out)

end Lexer

/-- `lex`. -/
def lex (input : String) : Except LexError (List Spanned) :=
  let cs := (Wire.utf8 input.toList).map Lexer.charOf
  Lexer.lexLoop cs.length 0 cs

/-- Keywords in any case, a negative literal next to a dash, and an escaped quote. -/
example : (lex "match (n)-[r]->(m) WHERE n.a = -1").map (fun ts => ts.map Spanned.token) =
    .ok [.matchKw, .lParen, .ident "n", .rParen, .dash, .lBracket, .ident "r", .rBracket, .arrow,
      .lParen, .ident "m", .rParen, .whereKw, .ident "n", .dot, .ident "a", .eq,
      .integer (-1)] := by
  decide +kernel

end Morceau
