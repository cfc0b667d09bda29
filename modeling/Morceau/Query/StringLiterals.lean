import Morceau.Query.Equality
import Morceau.Query.Lexing
import Morceau.Query.ParserCompleteness

/-!
# String literals

A string literal stands for the bytes of its text, one character per byte (`Query/Lexing.lean`). A
node that is created with a literal holds that string, and a lookup by the text as a parameter finds
it exactly if the text is ASCII (`string_literal_denotes_iff`).
-/

set_option autoImplicit false

namespace Morceau

open Lib LawfulStorage Interpreter Lexer

/-! ## A node with a literal -/

/-- The text is read as one identifier. -/
structure IsName (s : String) : Prop where
  tokens : tokensOf s = some [.ident s]

/-- `CREATE (n:label {id: 'x', key: lit})`. -/
def createText (label key lit : String) : String :=
  "CREATE (n:" ++ label ++ " \x7bid: 'x', " ++ key ++ ": " ++ lit ++ "\x7d)"

section Texts

variable {pre post : String} {before after : List Token} {c : Char}

theorem tokensOf_cons {rest : String} (hc : IsAscii c) :
    tokensOf (String.singleton c ++ rest) =
      tokenizer.tokens (c :: perByteChars rest.toList) := by
  rw [tokensOf_eq, String.toList_append, String.toList_singleton, perByteChars_append,
    perByteChars_cons_of_isAscii hc]
  rfl

/-- Texts are read one after the other if a separating character stands between them. -/
theorem tokensOf_append (hc : IsAscii c) (hsep : Separates c) (hpre : tokensOf pre = some before)
    (hpost : tokensOf (String.singleton c ++ post) = some after) :
    tokensOf (pre ++ (String.singleton c ++ post)) = some (before ++ after) := by
  rw [tokensOf_cons hc] at hpost
  rw [tokensOf_eq] at hpre ⊢
  rw [String.toList_append, String.toList_append, String.toList_singleton, perByteChars_append,
    perByteChars_append, perByteChars_cons_of_isAscii hc]
  show tokenizer.tokens (perByteChars pre.toList ++ c :: perByteChars post.toList) = _
  rw [Tokenizer.tokens_append hsep.closes _ _ (le_refl _) hpre, hpost]
  rfl

theorem tokensOf_space (h : tokensOf post = some after) : tokensOf (" " ++ post) = some after := by
  rw [tokensOf_eq] at h
  exact (tokensOf_cons (c := ' ') (by decide)).trans ((Tokenizer.tokens_skip rfl).trans h)

theorem tokensOf_colon (h : tokensOf post = some after) :
    tokensOf (":" ++ post) = some (.colon :: after) := by
  rw [tokensOf_eq] at h
  have hcons : tokensOf (":" ++ post) = tokenizer.tokens (':' :: perByteChars post.toList) :=
    tokensOf_cons (c := ':') (by decide)
  have hskip : tokenizer.skip ':' = false := by decide
  have hnext : ∀ cs, tokenizer.next ':' cs = some (.colon, 1) := fun cs => rfl
  rw [hcons, Tokenizer.tokens_cons hskip, hnext, Option.bind_some]
  dsimp only
  rw [List.drop_succ_cons, List.drop_zero, h]
  rfl

theorem separates_space : Separates ' ' := ⟨by decide, by decide, by decide, by decide⟩

theorem separates_colon : Separates ':' := ⟨by decide, by decide, by decide, by decide⟩

theorem tokensOf_createText {label key text lit : String} (hlabel : IsName label)
    (hkey : IsName key) (hlit : IsLiteral text lit) :
    tokensOf (createText label key lit) =
      some [.create, .lParen, .ident "n", .colon, .ident label, .lBrace, .ident "id", .colon,
        .string "x", .comma, .ident key, .colon, .string (perByte text), .rBrace, .rParen] := by
  have hsplit : createText label key lit = "CREATE (n" ++ (":" ++ (label ++ (" " ++
      ("\x7bid: 'x'," ++ (" " ++ (key ++ (":" ++ (" " ++ ("" ++ lit ++ "\x7d)"))))))))) := by
    have hname : "CREATE (n:" = "CREATE (n" ++ ":" := by decide +kernel
    have hid : " \x7bid: 'x', " = " " ++ ("\x7bid: 'x'," ++ " ") := by decide +kernel
    have hcolon : ": " = ":" ++ " " := by decide +kernel
    show "CREATE (n:" ++ label ++ " \x7bid: 'x', " ++ key ++ ": " ++ lit ++ "\x7d)" = _
    rw [hname, hid, hcolon]
    simp only [String.append_assoc, String.empty_append]
  have hnone : tokensOf "" = some [] := rfl
  have hclose : tokensOf "\x7d)" = some [.rBrace, .rParen] := by decide +kernel
  have hvalue := hlit.tokensOf_embedded hnone hclose
  have hentry := tokensOf_append (c := ':') (by decide) separates_colon hkey.tokens
    (tokensOf_colon (tokensOf_space hvalue))
  have hopen : tokensOf "\x7bid: 'x'," =
      some [.lBrace, .ident "id", .colon, .string "x", .comma] := by
    decide +kernel
  have hblock := tokensOf_append (c := ' ') (by decide) separates_space hopen
    (tokensOf_space hentry)
  have hnode := tokensOf_append (c := ' ') (by decide) separates_space hlabel.tokens
    (tokensOf_space hblock)
  have hcreate : tokensOf "CREATE (n" = some [.create, .lParen, .ident "n"] := by
    decide +kernel
  rw [hsplit]
  exact tokensOf_append (c := ':') (by decide) separates_colon hcreate (tokensOf_colon hnode)

end Texts

section Created

variable {σ : Type} [LawfulStorage σ] {P : Platform} {e e' : Engine σ} {params : Params}
  {label key text lit : String}

/-- The block of the statement. -/
def createProps (key t : String) : BTreeMap String Expr :=
  ((∅ : BTreeMap String Expr).insert "id" (.literal (.string "x"))).insert key
    (.literal (.string t))

theorem getElem?_createProps (k t : String) : (createProps key t)[k]? =
    if k = key then some (.literal (.string t))
    else if k = "id" then some (.literal (.string "x")) else none := by
  simp only [createProps, Std.ExtTreeMap.getElem?_insert, Std.compare_eq_iff_eq, eq_comm (a := k)]
  simp

theorem parse_createText (hlabel : IsName label) (hkey : IsName key) (hlit : IsLiteral text lit) :
    parse (createText label key lit) =
      .ok (.create ⟨"n", some label, createProps key (perByte text)⟩) := by
  have htokens := tokensOf_createText hlabel hkey hlit
  obtain ⟨tokens, hlex, htokens⟩ := Option.map_eq_some_iff.1 htokens
  have hliteral : ∀ t, ExprPhrase .or [.string t] (.literal (.string t)) := fun t =>
    .ofAnd (.ofNot (.ofComparison (.ofPrimary (.literal (.string t)))))
  have hblock : PropertyMapPhrase
      (.lBrace :: ([.ident "id", .colon, .string "x"] ++
        .comma :: [.ident key, .colon, .string (perByte text)]) ++ [.rBrace])
      (createProps key (perByte text)) := by
    refine .entries (.cons (.intro "id" (hliteral "x")) (.one (.intro key (hliteral _))))
      fun k => ?_
    -- the last entry for a key counts
    rw [getElem?_createProps]
    by_cases hlast : k = key
    · subst hlast
      simp
    · have hlast' : (k == key) = false := by simpa using hlast
      by_cases hid : k = "id"
      · subst hid
        simp [List.lookup_cons, hlast, hlast']
      · have hid' : (k == "id") = false := by simpa using hid
        simp [List.lookup_cons, hlast, hlast', hid, hid']
  rw [parse, toOption_eq_some_iff.1 hlex]
  refine parseTokens_of_phrase ?_
  rw [htokens]
  exact .create (.intro "n" (.intro (.some label) (.map hblock)))

theorem query_createText (hlabel : IsName label) (hkey : IsName key) (hlit : IsLiteral text lit)
    {q : QueryResult} :
    Engine.query P (createText label key lit) params e = .ok q e' ↔
      execute P (.create ⟨"n", some label, createProps key (perByte text)⟩) params e =
        .ok q e' := by
  rw [Engine.query, parse_createText hlabel hkey hlit]
  exact adaptExcept_eq_ok_iff

/-- The statement inserts the node with the literal as it was read. -/
theorem nodeParts_createProps (params : Params) (label : String) (hid : key ≠ "id") (t : String) :
    ∃ props, nodeParts ⟨"n", some label, createProps key t⟩ params = .ok (label, props, "x") ∧
      (nodeOfParts label props "x").properties[key]? = some (.string t) := by
  have hentry : ∀ (k : String) (c : Expr), (createProps key t)[k]? = some c →
      ∃ v, evalConst params c = .ok v := by
    intro k c hc
    rw [getElem?_createProps] at hc
    split at hc
    · cases hc
      exact ⟨_, rfl⟩
    · split at hc
      · cases hc
        exact ⟨_, rfl⟩
      · cases hc
  obtain ⟨props, hprops⟩ := evalPropertyMap_succeeds (createProps key t) params hentry
  have hlookup := (evalPropertyMap_ok hprops).2
  have hx : props["id"]? = some (.string "x") :=
    (hlookup "id" _).2 ⟨.literal (.string "x"), by simp [getElem?_createProps, Ne.symm hid], rfl⟩
  have ht : props[key]? = some (.string t) :=
    (hlookup key _).2 ⟨.literal (.string t), by simp [getElem?_createProps], rfl⟩
  refine ⟨props, ?_, ?_⟩
  · refine exceptBind_eq_ok_iff.2 ⟨label, rfl, exceptBind_eq_ok_iff.2 ⟨props, hprops, ?_⟩⟩
    exact exceptBind_eq_ok_iff.2 ⟨"x", by rw [requireId, hx], rfl⟩
  · rw [nodeOfParts, Std.ExtTreeMap.getElem?_filter', ht]
    simp [hid]

/-- `CREATE` that succeeds has inserted its node. -/
theorem Core.create {log : List Mutation} (h : Core P e log) {np : NodePattern} {q : QueryResult}
    {label id : String} {props : BTreeMap String Value}
    (hparts : nodeParts np params = .ok (label, props, id))
    (hexec : execute P (.create np) params e = .ok q e') :
    ∃ log', Core P e' log' ∧
      (PropertyGraph.ofLog log').nodes.lookup id = some (nodeOfParts label props id) := by
  obtain ⟨parts, e₁, hlook, hexec⟩ := bind_eq_ok_iff.1 hexec
  obtain ⟨hparts', rfl⟩ := look_eq_ok_iff.1 hlook
  cases hparts.symm.trans hparts'
  obtain ⟨_, e₂, hinsert, hexec⟩ := bind_eq_ok_iff.1 hexec
  have hinsert := callEngine_eq_ok_iff.1 hinsert
  cases hexec
  rcases insertNode_cases (P := P) (nodeOfParts label props id) e₁ with ⟨err, herr, -⟩ | hcommit
  · cases hinsert.symm.trans herr
  · rw [hcommit] at hinsert
    have hfresh : Fresh e₁ (.nodeInsert (nodeOfParts label props id)) := trivial
    rcases h.commit hfresh with
      ⟨e₃, hok, hdone⟩ | ⟨err, e₃, herr, -⟩
    · cases hinsert.symm.trans hok
      refine ⟨_, hdone.core, ?_⟩
      rw [PropertyGraph.ofLog_snoc]
      exact Finmap.lookup_insert _
    · cases hinsert.symm.trans herr

/-- A query that succeeds leaves a reachable engine. -/
theorem Reach.query (h : Reach P e) {cypher : String} {q : QueryResult}
    (hquery : Engine.query P cypher params e = .ok q e') : Reach P e' := by
  have hrun : (Call.query cypher params).run P e = .ok () e' :=
    bind_of_ok (adaptExcept_eq_ok_iff.2 hquery)
  have hreach := h.call (.query cypher params) (by rw [hrun]; trivial)
  rwa [hrun] at hreach

/-- The node that `CREATE` stores. -/
theorem create_stores (h : Reach P e) (hlit : IsLiteral text lit) (hlabel : IsName label)
    (hkey : IsName key) (hid : key ≠ "id") {q : QueryResult}
    (hquery : Engine.query P (createText label key lit) params e = .ok q e') :
    ∃ n, (∃ e₁, Engine.getNode P "x" e' = .ok (some n) e₁) ∧
      n.properties[key]? = some (.string (perByte text)) := by
  obtain ⟨log, hinv⟩ := h.inv
  obtain ⟨props, hparts, hstored⟩ := nodeParts_createProps params label hid (perByte text)
  obtain ⟨log', hcore, hlookup⟩ :=
    hinv.toCore.create hparts ((query_createText hlabel hkey hlit).1 hquery)
  obtain ⟨found, e₁, hread, -, rfl⟩ := hcore.agrees.getNode "x"
  rw [hlookup] at hread
  exact ⟨_, ⟨e₁, hread⟩, hstored⟩

/-- The lookup by the text finds a node exactly if the node has the text. -/
theorem lookup_finds_iff (h : Reach P e) {n : Node} {t x : String}
    (hn : ∃ e₁, Engine.getNode P "x" e = .ok (some n) e₁)
    (hstored : n.properties[key]? = some (.string t)) (hx : params[x]? = some (.string text)) :
    ∃ q e₁, execute P (nodesWithProperty key x) params e = .ok q e₁ ∧
      ([.node n] ∈ q.rows ↔ t = text) := by
  obtain ⟨log, hinv⟩ := h.inv
  have hagrees := hinv.toCore.agrees
  obtain ⟨e₁, hread⟩ := hn
  obtain ⟨found, e₂, hread', -, hfound⟩ := hagrees.getNode "x"
  cases hread.symm.trans hread'
  have hlive : (PropertyGraph.ofLog log).nodes.lookup n.id = some n := by
    rw [hagrees.nodeIds "x" n hfound.symm]
    exact hfound.symm
  obtain ⟨q, e₃, hexec, hmem⟩ := nodesWithProperty_spec (p := key) hinv.toCore hx
  refine ⟨q, e₃, hexec, ?_⟩
  rw [hmem, hstored]
  simp [hlive, valuesEqual]

/-- When a string literal denotes its text. A literal that stands between two texts that can be read
is read as one string, the text with one character per byte of its UTF-8 encoding; that is the text
itself exactly if the text is ASCII. On a reachable engine, a `CREATE` with the literal stores what
was read, and a later lookup by the text finds the node under the same condition. -/
theorem string_literal_denotes_iff (hlit : IsLiteral text lit) :
    (∀ pre post before after, tokensOf pre = some before → tokensOf post = some after →
      tokensOf (pre ++ lit ++ post) = some (before ++ .string (perByte text) :: after) ∧
      (tokensOf (pre ++ lit ++ post) = some (before ++ .string text :: after) ↔
        ∀ c ∈ text.toList, IsAscii c)) ∧
    ∀ label key, IsName label → IsName key → key ≠ "id" →
      ∀ (e e' : Engine σ) params q, Reach P e →
        Engine.query P (createText label key lit) params e = .ok q e' →
      Reach P e' ∧ ∃ n, (∃ e₁, Engine.getNode P "x" e' = .ok (some n) e₁) ∧
        (n.properties[key]? = some (.string text) ↔ ∀ c ∈ text.toList, IsAscii c) ∧
        ∀ (later : Engine σ) params' x, Reach P later →
          (∃ e₁, Engine.getNode P "x" later = .ok (some n) e₁) →
          params'[x]? = some (.string text) →
          ∃ q' e₁, execute P (nodesWithProperty key x) params' later = .ok q' e₁ ∧
            ([.node n] ∈ q'.rows ↔ ∀ c ∈ text.toList, IsAscii c) := by
  simp only [← perByte_eq_iff]
  refine ⟨fun pre post before after hpre hpost => ?_, ?_⟩
  · have hread := hlit.tokensOf_embedded hpre hpost
    refine ⟨hread, ?_⟩
    rw [hread]
    simp
  · intro label key hlabel hkey hid e e' params q hreach hquery
    obtain ⟨n, hn, hstored⟩ := create_stores hreach hlit hlabel hkey hid hquery
    refine ⟨hreach.query hquery, n, hn, by rw [hstored]; simp, ?_⟩
    intro later params' x hlater hn' hx
    exact lookup_finds_iff hlater hn' hstored hx

end Created

/-- An engine with no nodes. -/
def noNodes : Engine MemoryStorage := inMemory []

theorem reach_noNodes : Reach bincode noNodes := reach_inMemory trivial

/-- `it's`, with its quote escaped, is stored as it is. -/
theorem ascii_literal_is_stored :
    ∃ q e' n, Engine.query bincode (createText "L" "p" (escapedLiteral '\x27' "it's")) ∅ noNodes =
        .ok q e' ∧
      (∃ e₁, Engine.getNode bincode "x" e' = .ok (some n) e₁) ∧
      n.properties["p"]? = some (.string "it's") := by
  have hlit : IsLiteral "it's" (escapedLiteral '\x27' "it's") :=
    isLiteral_escapedLiteral (.inr rfl) _
  have hL : IsName "L" := ⟨by decide +kernel⟩
  have hp : IsName "p" := ⟨by decide +kernel⟩
  obtain ⟨e', hexec⟩ := resultTable_eq_some (q := .empty) (by decide +kernel :
    resultTable (execute bincode (.create ⟨"n", some "L", createProps "p" (perByte "it's")⟩) ∅
      noNodes) = some .empty)
  have hquery := (query_createText hL hp hlit).2 hexec
  obtain ⟨-, n, hn, hstored, -⟩ := (string_literal_denotes_iff hlit).2 "L" "p" hL hp (by decide)
    noNodes e' ∅ .empty reach_noNodes hquery
  exact ⟨_, e', n, hquery, hn, hstored.2 (perByte_eq_iff.1 (by decide +kernel))⟩

/-- An engine in which `CREATE (n:L {id: 'x', p: 'é'})` was run. -/
def accented : Engine MemoryStorage := inMemory [.query (createText "L" "p" "'é'") ∅]

/-- The two bytes of `é` become two characters: the node has another text, and the lookup by `é`
does not find it. -/
theorem accented_literal_is_not_stored :
    Reach bincode accented ∧ escapedLiteral '\x27' "é" = "'é'" ∧
      tokensOf "'é'" = some [.string "Ã©"] ∧
      (foundNode (Engine.getNode bincode "x" accented)).map (fun n => n.properties["p"]?) =
        some (some (.string "Ã©")) ∧
      ∃ q e', execute bincode (nodesWithProperty "p" "q") ((∅ : Params).insert "q" (.string "é"))
        accented = .ok q e' ∧ q.rows.length = 0 := by
  refine ⟨reach_inMemory (by decide +kernel), by decide +kernel, by decide +kernel,
    by decide +kernel, ?_⟩
  exact rowCount_eq_some (by decide +kernel)

end Morceau
