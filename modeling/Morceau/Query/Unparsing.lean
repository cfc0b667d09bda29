import Morceau.Query.ParserCompleteness

/-!
# Statements as tokens

`Statement.tokens` writes a statement as tokens again: every operator in parentheses, properties in
the order of their keys, `ASC` and `DESC` always there. Not every statement can be written. The
syntax tree has literals for lists and timestamps, properties with an empty path, paths without a
hop and `count` without a variable, and the parser builds none of these: `Statement.expressible`
says which trees it can build. The main result, `parser_builds_expressible`, is that it builds
exactly these, and that it reads the tokens of each of them back as the statement.
-/

set_option autoImplicit false

namespace Morceau

open Lib

/-! ## Writing -/

/-- The literal of a value, if it has one. -/
def Value.literalToken : Value → Option Token
  | .null => some .null
  | .bool true => some .trueKw
  | .bool false => some .falseKw
  | .i64 i => some (.integer i)
  | .f64 x => some (.float x)
  | .string s => some (.string s)
  | _ => none

/-- The token of an operator. -/
def BinOp.token : BinOp → Token
  | .and => .and
  | .or => .or
  | .eq => .eq
  | .notEq => .notEq
  | .lt => .lt
  | .gt => .gt
  | .ltEq => .ltEq
  | .gtEq => .gtEq

/-- A dotted path after its variable. -/
def pathTokens (path : List String) : List Token := path.flatMap fun key => [.dot, .ident key]

/-- An expression, as a primary one. -/
def Expr.tokens : Expr → List Token
  | .literal v => v.literalToken.toList
  | .param name => [.param name]
  | .property var path => .ident var :: pathTokens path
  | .idOf var => [.ident "id", .lParen, .ident var, .rParen]
  | .binary op lhs rhs => .lParen :: (lhs.tokens ++ op.token :: rhs.tokens) ++ [.rParen]
  | .not inner => .lParen :: (.not :: inner.tokens) ++ [.rParen]

/-- Phrases with commas between them. -/
def commaTokens : List (List Token) → List Token
  | [] => []
  | [ts] => ts
  | ts :: tss => ts ++ .comma :: commaTokens tss

/-- An entry of a property block. -/
def entryTokens (entry : String × Expr) : List Token :=
  .ident entry.1 :: .colon :: entry.2.tokens

/-- The label and the properties of a pattern. -/
def blockTokens (label : Option String) (props : BTreeMap String Expr) : List Token :=
  (match label with
    | some name => [.colon, .ident name]
    | none => []) ++
  (if props.toList = [] then []
    else .lBrace :: commaTokens (props.toList.map entryTokens) ++ [.rBrace])

def NodePattern.tokens (np : NodePattern) : List Token :=
  .lParen :: .ident np.var :: blockTokens np.label np.properties ++ [.rParen]

def EdgePattern.tokens (ep : EdgePattern) : List Token :=
  .dash :: .lBracket :: .ident ep.var :: blockTokens ep.label ep.properties ++ [.rBracket, .arrow]

/-- A node, or a path with its hops. -/
def Pattern.tokens : Pattern → List Token
  | .node np => np.tokens
  | .path start chain => start.tokens ++ chain.flatMap fun hop => hop.1.tokens ++ hop.2.tokens

def CollectTarget.tokens : CollectTarget → List Token
  | .var v => [.ident v]
  | .property v path => .ident v :: pathTokens path

def ReturnItem.tokens : ReturnItem → List Token
  | .var v => [.ident v]
  | .property v path => .ident v :: pathTokens path
  | .count target => .ident "count" :: .lParen :: (target.map Token.ident).toList ++ [.rParen]
  | .collect target => .ident "collect" :: .lParen :: target.tokens ++ [.rParen]

def whereTokens : Option Expr → List Token
  | none => []
  | some e => .whereKw :: e.tokens

def matchTokens (patterns : List Pattern) (whereClause : Option Expr) : List Token :=
  .matchKw :: commaTokens (patterns.map Pattern.tokens) ++ whereTokens whereClause

def SortDirection.token : SortDirection → Token
  | .asc => .asc
  | .desc => .desc

def orderByTokens : Option OrderBy → List Token
  | none => []
  | some o => .order :: .byKw :: o.expr.tokens ++ [o.direction.token]

def limitTokens : Option Nat → List Token
  | none => []
  | some n => [.limit, .integer (Int64.ofNat n)]

/-- The statement as tokens. -/
def Statement.tokens : Statement → List Token
  | .create np => .create :: np.tokens
  | .merge np => .merge :: np.tokens
  | .matchReturn patterns whereClause returnItems orderBy limit =>
      matchTokens patterns whereClause ++ .returnKw ::
        (commaTokens (returnItems.map ReturnItem.tokens) ++ orderByTokens orderBy ++
          limitTokens limit)
  | .matchDelete patterns whereClause var detach =>
      matchTokens patterns whereClause ++ (if detach then [.detach] else []) ++
        [.delete, .ident var]

/-! ## What can be written -/

def Expr.expressible : Expr → Bool
  | .literal v => v.literalToken.isSome
  | .param _ => true
  | .property _ path => !path.isEmpty
  | .idOf _ => true
  | .binary _ lhs rhs => lhs.expressible && rhs.expressible
  | .not inner => inner.expressible

/-- Every property of a pattern can be written. -/
def propsExpressible (props : BTreeMap String Expr) : Bool :=
  props.toList.all fun entry => entry.2.expressible

def Pattern.expressible : Pattern → Bool
  | .node np => propsExpressible np.properties
  | .path start chain => propsExpressible start.properties && !chain.isEmpty &&
      chain.all fun hop => propsExpressible hop.1.properties && propsExpressible hop.2.properties

def CollectTarget.expressible : CollectTarget → Bool
  | .var _ => true
  | .property _ path => !path.isEmpty

def ReturnItem.expressible : ReturnItem → Bool
  | .var _ => true
  | .property _ path => !path.isEmpty
  | .count target => target.isSome
  | .collect target => target.expressible

/-- The condition of a `MATCH`, or what it sorts by. -/
def optionExpressible (e : Option Expr) : Bool := e.all Expr.expressible

/-- There is a pattern, and all patterns and the condition can be written. -/
def matchExpressible (patterns : List Pattern) (whereClause : Option Expr) : Bool :=
  !patterns.isEmpty && patterns.all Pattern.expressible && optionExpressible whereClause

/-- The statement can be written. A limit is an `i64` in the text. -/
def Statement.expressible : Statement → Bool
  | .create np => propsExpressible np.properties
  | .merge np => propsExpressible np.properties
  | .matchReturn patterns whereClause returnItems orderBy limit =>
      matchExpressible patterns whereClause && !returnItems.isEmpty &&
        returnItems.all ReturnItem.expressible && optionExpressible (orderBy.map OrderBy.expr) &&
        limit.all fun n => decide (n < 2 ^ 63)
  | .matchDelete patterns whereClause _ _ => matchExpressible patterns whereClause

/-! ## Expressions -/

theorem literalToken_eq_some_iff {v : Value} {t : Token} :
    v.literalToken = some t ↔ LiteralToken t v := by
  constructor
  · intro h
    unfold Value.literalToken at h
    split at h <;> cases h <;> constructor
  · rintro ⟨⟩ <;> rfl

/-- What a phrase means can be written. -/
theorem ExprPhrase.expressible {l : Precedence} {used : List Token} {e : Expr}
    (h : ExprPhrase l used e) : e.expressible = true := by
  induction h with
  | literal ht => rw [Expr.expressible, literalToken_eq_some_iff.2 ht]; rfl
  | property var hpath => simpa [Expr.expressible] using hpath.nonempty
  | compare _ _ _ ihl ihr | and _ _ ihl ihr | or _ _ ihl ihr => simp [Expr.expressible, ihl, ihr]
  | not _ ih => exact ih
  | param _ | idOf _ => rfl
  | parens _ ih | ofPrimary _ ih | ofComparison _ ih | ofNot _ ih | ofAnd _ ih => exact ih

theorem pathPhrase_tokens {path : List String} (h : path ≠ []) :
    PathPhrase (pathTokens path) path := by
  refine ⟨?_, h⟩
  clear h
  induction path with
  | nil => exact .nil
  | cons key path ih => exact Star.cons (KeyPhrase.intro key) ih

/-- The tokens of an expression derive it, as a primary expression. -/
theorem Expr.phrase_tokens : ∀ {e : Expr}, e.expressible = true →
    ExprPhrase .primary e.tokens e
  | .literal v, h => by
      obtain ⟨t, ht⟩ := Option.isSome_iff_exists.1 h
      rw [Expr.tokens, ht]
      exact .literal (literalToken_eq_some_iff.1 ht)
  | .param name, _ => .param name
  | .property var path, h => .property var (pathPhrase_tokens (by simpa [Expr.expressible] using h))
  | .idOf var, _ => .idOf var
  | .not inner, h => .parens (.ofAnd (.ofNot (.not (.ofComparison (.ofPrimary (phrase_tokens h))))))
  | .binary op lhs rhs, h => by
      have hand := Bool.and_eq_true_iff.1 h
      have hl := phrase_tokens hand.1
      have hr := phrase_tokens hand.2
      -- operands are primary expressions, so they fit at every level
      have hnot : ∀ {e : Expr}, ExprPhrase .primary e.tokens e → ExprPhrase .not e.tokens e :=
        fun h => .ofComparison (.ofPrimary h)
      have hcompare : ∀ {t op}, ComparisonToken t op →
          ExprPhrase .or (lhs.tokens ++ t :: rhs.tokens) (.binary op lhs rhs) :=
        fun h => .ofAnd (.ofNot (.ofComparison (.compare h hl hr)))
      refine .parens ?_
      cases op with
      | and => exact .ofAnd (.and (.ofNot (hnot hl)) (hnot hr))
      | or => exact .or (.ofAnd (.ofNot (hnot hl))) (.ofNot (hnot hr))
      | eq => exact hcompare .eq
      | notEq => exact hcompare .notEq
      | lt => exact hcompare .lt
      | gt => exact hcompare .gt
      | ltEq => exact hcompare .ltEq
      | gtEq => exact hcompare .gtEq

/-- As an expression of any kind. -/
theorem Expr.phrase_or {e : Expr} (h : e.expressible = true) : ExprPhrase .or e.tokens e :=
  .ofAnd (.ofNot (.ofComparison (.ofPrimary (phrase_tokens h))))

/-! ## Patterns -/

/-- Phrases with commas between them. -/
theorem sepBy_commaTokens {α : Type} {D : List Token → α → Prop} {f : α → List Token} (as : List α)
    (hne : as ≠ []) (h : ∀ a ∈ as, D (f a) a) : SepBy .comma D (commaTokens (as.map f)) as := by
  induction as with
  | nil => exact absurd rfl hne
  | cons a as ih =>
      obtain ⟨ha, has⟩ := List.forall_mem_cons.1 h
      cases as with
      | nil => exact .one ha
      | cons b as => exact .cons ha (ih (List.cons_ne_nil b as) has)

theorem propsExpressible_iff {props : BTreeMap String Expr} : propsExpressible props = true ↔
    ∀ (key : String) (e : Expr), props[key]? = some e → e.expressible = true := by
  simp only [propsExpressible, List.all_eq_true, Prod.forall,
    Std.ExtTreeMap.mem_toList_iff_getElem?_eq_some]

/-- In a list with distinct keys a key has the value of its only entry. -/
theorem lookup_eq_some_iff_mem {α : Type} {key : String} {v : α} (entries : List (String × α))
    (h : entries.Pairwise fun a b => a.1 ≠ b.1) :
    entries.lookup key = some v ↔ (key, v) ∈ entries := by
  induction entries with
  | nil => simp
  | cons entry entries ih =>
      obtain ⟨hfirst, hrest⟩ := List.pairwise_cons.1 h
      obtain ⟨k, w⟩ := entry
      rw [List.lookup_cons, List.mem_cons]
      by_cases hkey : key = k
      · subst hkey
        have hnot : (key, v) ∉ entries := fun hmem => hfirst _ hmem rfl
        simp [hnot, eq_comm]
      · have hbeq : (key == k) = false := beq_false_of_ne hkey
        simp [hkey, hbeq, ih hrest]

/-- A map has the values of its entries, read from the last one. -/
theorem getElem?_eq_lookup_reverse (props : BTreeMap String Expr) (key : String) :
    props[key]? = props.toList.reverse.lookup key := by
  have hdistinct : props.toList.reverse.Pairwise fun a b => a.1 ≠ b.1 :=
    List.pairwise_reverse.2 (Std.ExtTreeMap.distinct_keys_toList.imp fun hne heq =>
      hne (by rw [heq]; simp))
  ext e
  rw [lookup_eq_some_iff_mem _ hdistinct, List.mem_reverse,
    Std.ExtTreeMap.mem_toList_iff_getElem?_eq_some]

theorem PropertyMapPhrase.expressible {used : List Token} {props : BTreeMap String Expr}
    (h : PropertyMapPhrase used props) : propsExpressible props = true := by
  rw [propsExpressible_iff]
  intro key e he
  cases h with
  | empty => simp at he
  | @entries _ entries _ hentries hlast =>
      rw [hlast] at he
      -- the value is the one of an entry
      obtain ⟨before, after, hsplit, -⟩ := List.lookup_eq_some_iff.1 he
      have hmem : (key, e) ∈ entries := List.mem_reverse.1 (by simp [hsplit])
      obtain ⟨-, hall⟩ := hentries.forall_mem (Q := fun entry => entry.2.expressible = true) (by
        rintro _ _ ⟨_, hexpr⟩
        exact hexpr.expressible)
      exact hall _ hmem

theorem BlockPhrase.expressible {used : List Token} {label : Option String}
    {props : BTreeMap String Expr} (h : BlockPhrase used (label, props)) :
    propsExpressible props = true := by
  obtain ⟨-, hprops⟩ := h
  cases hprops with
  | none => rfl
  | map hmap => exact hmap.expressible

theorem blockPhrase_tokens (label : Option String) {props : BTreeMap String Expr}
    (h : propsExpressible props = true) : BlockPhrase (blockTokens label props) (label, props) := by
  have hlabel : LabelPhrase (match label with
      | some name => [.colon, .ident name]
      | none => []) label := by
    cases label with
    | none => exact .none
    | some name => exact .some name
  refine .intro hlabel ?_
  split
  · rename_i hnil
    -- without an entry the map is empty, and nothing is written
    have hempty : props = ∅ := Std.ExtTreeMap.ext_getElem? fun key => by
      rw [getElem?_eq_lookup_reverse, hnil]
      simp
    rw [hempty]
    exact .none
  · rename_i hne
    refine .map (.entries (sepBy_commaTokens _ hne ?_) (getElem?_eq_lookup_reverse props))
    intro entry hentry
    exact .intro entry.1 (Expr.phrase_or (List.all_eq_true.1 h entry hentry))

theorem NodePhrase.expressible {used : List Token} {np : NodePattern} (h : NodePhrase used np) :
    propsExpressible np.properties = true := by
  obtain ⟨_, hblock⟩ := h
  exact hblock.expressible

theorem NodePattern.phrase_tokens {np : NodePattern}
    (h : propsExpressible np.properties = true) : NodePhrase np.tokens np :=
  .intro np.var (blockPhrase_tokens np.label h)

theorem EdgePattern.phrase_tokens {ep : EdgePattern}
    (h : propsExpressible ep.properties = true) : EdgePhrase ep.tokens ep :=
  .intro ep.var (blockPhrase_tokens ep.label h)

theorem HopPhrase.expressible {used : List Token} {hop : EdgePattern × NodePattern}
    (h : HopPhrase used hop) : propsExpressible hop.1.properties = true ∧
      propsExpressible hop.2.properties = true := by
  obtain ⟨⟨_, hblock⟩, htarget⟩ := h
  exact ⟨hblock.expressible, htarget.expressible⟩

theorem PatternPhrase.expressible {used : List Token} {pattern : Pattern}
    (h : PatternPhrase used pattern) : pattern.expressible = true := by
  cases h with
  | node hnode => exact hnode.expressible
  | path hstart hchain hne =>
      have hhops := hchain.forall_mem (Q := fun hop => (propsExpressible hop.1.properties &&
        propsExpressible hop.2.properties) = true) fun _ _ hhop => by
          simpa using hhop.expressible
      simp only [Pattern.expressible, hstart.expressible, List.all_eq_true.2 hhops, Bool.and_true,
        Bool.true_and]
      simpa using hne

theorem Pattern.phrase_tokens {pattern : Pattern} (h : pattern.expressible = true) :
    PatternPhrase pattern.tokens pattern := by
  cases pattern with
  | node np => exact .node (NodePattern.phrase_tokens h)
  | path start chain =>
      simp only [Pattern.expressible, Bool.and_eq_true, List.all_eq_true] at h
      obtain ⟨⟨hstart, hne⟩, hhops⟩ := h
      refine .path (NodePattern.phrase_tokens hstart) (Star.flatMap chain fun hop hmem => ?_)
        (by simpa using hne)
      obtain ⟨hedge, htarget⟩ := hhops hop hmem
      exact .intro (EdgePattern.phrase_tokens hedge) (NodePattern.phrase_tokens htarget)

/-! ## Statements -/

theorem ReturnItemPhrase.expressible {used : List Token} {item : ReturnItem}
    (h : ReturnItemPhrase used item) : item.expressible = true := by
  cases h with
  | var _ | count _ => rfl
  | property _ hpath => simpa [ReturnItem.expressible] using hpath.nonempty
  | collect htarget =>
      cases htarget with
      | var _ => rfl
      | property _ hpath =>
          simpa [ReturnItem.expressible, CollectTarget.expressible] using hpath.nonempty

theorem ReturnItem.phrase_tokens {item : ReturnItem} (h : item.expressible = true) :
    ReturnItemPhrase item.tokens item := by
  cases item with
  | var v => exact .var v
  | property v path =>
      exact .property v (pathPhrase_tokens (by simpa [ReturnItem.expressible] using h))
  | count target =>
      obtain ⟨v, rfl⟩ := Option.isSome_iff_exists.1 h
      exact .count v
  | collect target =>
      refine .collect ?_
      cases target with
      | var v => exact .var v
      | property v path =>
          exact .property v (pathPhrase_tokens (by
            simpa [ReturnItem.expressible, CollectTarget.expressible] using h))

theorem WherePhrase.expressible {used : List Token} {whereClause : Option Expr}
    (h : WherePhrase used whereClause) : optionExpressible whereClause = true := by
  cases h with
  | none => rfl
  | some he => exact he.expressible

theorem MatchPhrase.expressible {used : List Token} {patterns : List Pattern}
    {whereClause : Option Expr} (h : MatchPhrase used (patterns, whereClause)) :
    matchExpressible patterns whereClause = true := by
  obtain ⟨hpatterns, hwhere⟩ := h
  obtain ⟨hne, hall⟩ := hpatterns.forall_mem fun _ _ hp => hp.expressible
  simp only [matchExpressible, List.all_eq_true.2 hall, hwhere.expressible, Bool.and_true]
  simpa using hne

theorem matchPhrase_tokens {patterns : List Pattern} {whereClause : Option Expr}
    (h : matchExpressible patterns whereClause = true) :
    MatchPhrase (matchTokens patterns whereClause) (patterns, whereClause) := by
  simp only [matchExpressible, Bool.and_eq_true, List.all_eq_true] at h
  obtain ⟨⟨hne, hall⟩, hwhere⟩ := h
  refine .intro (sepBy_commaTokens patterns (by simpa using hne) fun pattern hmem =>
    Pattern.phrase_tokens (hall pattern hmem)) ?_
  cases whereClause with
  | none => exact .none
  | some e => exact .some (Expr.phrase_or hwhere)

theorem OrderByPhrase.expressible {used : List Token} {orderBy : Option OrderBy}
    (h : OrderByPhrase used orderBy) : optionExpressible (orderBy.map OrderBy.expr) = true := by
  cases h with
  | none => rfl
  | some he _ => exact he.expressible

theorem orderByPhrase_tokens {orderBy : Option OrderBy}
    (h : optionExpressible (orderBy.map OrderBy.expr) = true) :
    OrderByPhrase (orderByTokens orderBy) orderBy := by
  cases orderBy with
  | none => exact .none
  | some o =>
      obtain ⟨e, direction⟩ := o
      refine .some (Expr.phrase_or h) ?_
      cases direction with
      | asc => exact .asc
      | desc => exact .desc

theorem LimitPhrase.lt {used : List Token} {limit : Option Nat} (h : LimitPhrase used limit) :
    (limit.all fun n => decide (n < 2 ^ 63)) = true := by
  cases h with
  | none => rfl
  | @some i hi =>
      have hlt := i.toInt_lt
      exact decide_eq_true (by omega)

theorem limitPhrase_tokens {limit : Option Nat}
    (h : (limit.all fun n => decide (n < 2 ^ 63)) = true) :
    LimitPhrase (limitTokens limit) limit := by
  cases limit with
  | none => exact .none
  | some n =>
      have hlt : n < 2 ^ 63 := of_decide_eq_true h
      have hint : (Int64.ofNat n).toInt = n := Int64.toInt_ofNat_of_lt hlt
      have hphrase := LimitPhrase.some (i := Int64.ofNat n) (by omega)
      rwa [hint, Int.toNat_natCast] at hphrase

theorem StatementPhrase.expressible {used : List Token} {s : Statement}
    (h : StatementPhrase used s) : s.expressible = true := by
  cases h with
  | create hnode => exact hnode.expressible
  | merge hnode => exact hnode.expressible
  | matchReturn hm hi ho hl =>
      obtain ⟨hne, hall⟩ := hi.forall_mem fun _ _ hitem => hitem.expressible
      simp only [Statement.expressible, hm.expressible, List.all_eq_true.2 hall, ho.expressible,
        hl.lt, Bool.and_true, Bool.true_and]
      simpa using hne
  | matchDelete var hm _ => exact hm.expressible

/-- The tokens of a statement derive it. -/
theorem Statement.phrase_tokens {s : Statement} (h : s.expressible = true) :
    StatementPhrase s.tokens s := by
  cases s with
  | create np => exact .create (NodePattern.phrase_tokens h)
  | merge np => exact .merge (NodePattern.phrase_tokens h)
  | matchReturn patterns whereClause returnItems orderBy limit =>
      simp only [Statement.expressible, Bool.and_eq_true, List.all_eq_true] at h
      obtain ⟨⟨⟨⟨hm, hne⟩, hall⟩, ho⟩, hl⟩ := h
      exact .matchReturn (matchPhrase_tokens hm) (sepBy_commaTokens returnItems (by simpa using hne)
        fun item hmem => ReturnItem.phrase_tokens (hall item hmem)) (orderByPhrase_tokens ho)
        (limitPhrase_tokens hl)
  | matchDelete patterns whereClause var detach =>
      refine .matchDelete var (matchPhrase_tokens h) ?_
      cases detach with
      | false => exact .none
      | true => exact .detach

/-- A statement that the parser returns derives from the tokens. -/
theorem phrase_of_parseTokens {tokens : List Spanned} {s : Statement}
    (h : parseTokens tokens = .ok s) : StatementPhrase (tokens.map Spanned.token) s := by
  rw [parseTokens] at h
  split at h
  · rename_i s' p' hrun
    cases h
    obtain ⟨used, hused, hs⟩ := Parser.sound_parseStatement _ _ _ hrun
    -- the parser stops at the end of the tokens only
    have hnil : p'.rest = [] := by
      simpa [TokenStream.next] using Parser.exhausts_parseStatement _ _ _ hrun
    have hall := Parser.map_token_of_consumes hused
    rw [hnil, List.map_nil, List.append_nil] at hall
    rwa [hall]
  · cases h

/-- The parser builds exactly the statements that can be written, and it reads the tokens of each of
them, at whatever offsets, back as the statement. -/
theorem parser_builds_expressible (s : Statement) :
    ((∃ tokens, parseTokens tokens = .ok s) ↔ s.expressible = true) ∧
      (s.expressible = true → ∀ tokens : List Spanned, tokens.map Spanned.token = s.tokens →
        parseTokens tokens = .ok s) := by
  have hback : s.expressible = true → ∀ tokens : List Spanned,
      tokens.map Spanned.token = s.tokens → parseTokens tokens = .ok s := by
    intro h tokens htokens
    apply parseTokens_of_phrase
    rw [htokens]
    exact s.phrase_tokens h
  refine ⟨⟨?_, fun h => ?_⟩, hback⟩
  · rintro ⟨tokens, htokens⟩
    exact (phrase_of_parseTokens htokens).expressible
  · refine ⟨s.tokens.map fun t => ⟨t, 0⟩, hback h _ ?_⟩
    simp [Function.comp_def]

/-- A condition with a negated conjunction, and one literal that no text has. -/
theorem nested_condition_is_read_back :
    (let cond : Expr := .not (.binary .and (.idOf "n") (.property "n" ["a", "b"]))
      let s : Statement := .matchDelete [.node ⟨"n", none, ∅⟩] (some cond) "n" true
      parseTokens (s.tokens.map fun t => ⟨t, 7⟩) = .ok s) ∧
    ¬∃ tokens, parseTokens tokens =
      .ok (.matchDelete [.node ⟨"n", none, ∅⟩] (some (.literal (.list []))) "n" false) := by
  refine ⟨(parser_builds_expressible _).2 rfl _ (by simp [Function.comp_def]), ?_⟩
  rw [(parser_builds_expressible _).1]
  exact Bool.false_ne_true

end Morceau
