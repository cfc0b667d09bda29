import Morceau.Query.ParserPrefixes

/-!
# Where the parser reports an error

The parser looks one token ahead and never goes back, so it fails at the first token that no
statement can have there. What it has consumed when it fails is the beginning of a statement
(`reads_parseStatement`), and none of its functions looks further than the token that it stops at
(`tracks_parseStatement`).

So an error splits the tokens (`error_at_first_bad_token`): those before the reported one can be
continued to a statement, and those up to it cannot. An error at the end of the tokens means that
the statement is incomplete.
-/

set_option autoImplicit false

namespace Morceau

open Lib TokenStream

namespace Parser

/-! ## Looking no further -/

@[grind ←] theorem forward_peek : Forward peek := fun _ => ⟨[], rfl⟩

@[grind ←] theorem forward_peekOffset : Forward peekOffset := fun _ => ⟨[], rfl⟩

@[grind ←] theorem forward_tokensLeft : Forward tokensLeft := fun _ => ⟨[], rfl⟩

@[grind ←] theorem forward_advance : Forward advance := by
  rintro ⟨_ | ⟨spanned, rest⟩, last⟩
  · exact ⟨[], rfl⟩
  · exact ⟨[spanned.token], rfl, rfl⟩

@[grind ←] theorem forward_failExpecting {α : Type} (label : String) :
    Forward (failExpecting label : ParseM α) := by
  refine .bind forward_peek fun t => ?_
  cases t with
  | none => exact .throw _
  | some t => exact .bind forward_peekOffset fun offset => .throw _

@[grind ←] theorem forward_expect (t : Token) (label : String) : Forward (expect t label) :=
  (reads_expect t label).forward

@[grind ←] theorem forward_expectIdent (label : String) : Forward (expectIdent label) :=
  (reads_expectIdent label).forward

@[grind ←] theorem forward_expectEnd : Forward expectEnd := reads_expectEnd.forward

@[grind ←] theorem forward_parseUnsignedInt : Forward parseUnsignedInt :=
  reads_parseUnsignedInt.forward

@[grind ←] theorem forward_parsePropertyPath : Forward parsePropertyPath :=
  .bind forward_tokensLeft fun n => isMany_parsePropertyPathLoop.forward (by grind) n

@[grind ←] theorem forward_parseExpr : Forward parseExpr := reads_parseExpr.forward

@[grind ←] theorem forward_parsePropertyMapLoop (fuel : Nat) (props : BTreeMap String Expr) :
    Forward (parsePropertyMapLoop fuel props) := (reads_parsePropertyMapLoop fuel props).forward

@[grind ←] theorem forward_parsePropertyMap : Forward parsePropertyMap :=
  reads_parsePropertyMap.forward

@[grind ←] theorem forward_parseLabelAndProperties (label : String) :
    Forward (parseLabelAndProperties label) := (reads_parseLabelAndProperties label).forward

@[grind ←] theorem forward_parseNodePattern : Forward parseNodePattern :=
  reads_parseNodePattern.forward

@[grind ←] theorem forward_parseEdgePattern : Forward parseEdgePattern :=
  reads_parseEdgePattern.forward

@[grind ←] theorem forward_parsePattern : Forward parsePattern := reads_parsePattern.forward

@[grind ←] theorem forward_parsePatternList : Forward parsePatternList :=
  reads_parsePatternList.forward

@[grind ←] theorem forward_parseReturnItem : Forward parseReturnItem :=
  reads_parseReturnItem.forward

@[grind ←] theorem forward_parseReturnItems : Forward parseReturnItems :=
  reads_parseReturnItems.forward

@[grind ←] theorem forward_parseOrderBy : Forward parseOrderBy := reads_parseOrderBy.forward

/-- Two parsers with the same next token. -/
theorem tracks_peek {α : Type} {p q : Parser} {f g : Option Token → ParseM α}
    (h : ∀ t, next p = some t → next q = some t → TracksAt p q (f (some t)) (g (some t))) :
    TracksAt p q (peek >>= f) (peek >>= g) := by
  refine .of_next fun t hp hq => .congr ?_ ?_ (h t hp hq)
  · rw [bind_of_ok (peek_apply p), hp]
  · rw [bind_of_ok (peek_apply q), hq]

theorem tracks_advance {α : Type} {p q : Parser} {t : Token} {f g : Unit → ParseM α}
    (hp : next p = some t) (hq : next q = some t) (hf : Forward (f ()))
    (h : TracksAt (tail p) (tail q) (f ()) (g ())) :
    TracksAt p q (advance >>= f) (advance >>= g) :=
  .step (advance_apply p) (advance_apply q) hf hp hq h

theorem tracks_failExpecting {α : Type} (label : String) (p q : Parser) :
    TracksAt p q (failExpecting label : ParseM α) (failExpecting label) :=
  tracks_peek fun _ _ _ => .of_error rfl rfl

theorem tracks_expect (t : Token) (label : String) (p q : Parser) :
    TracksAt p q (expect t label) (expect t label) := by
  refine tracks_peek fun t' hp hq => ?_
  by_cases h : some t' = some t
  · simp only [if_pos h]
    exact tracks_advance (f := pure) (g := pure) hp hq (by grind) (.pure ())
  · simp only [if_neg h]
    exact tracks_failExpecting label p q

theorem tracks_expectIdent (label : String) (p q : Parser) :
    TracksAt p q (expectIdent label) (expectIdent label) := by
  refine tracks_peek fun t hp hq => ?_
  cases t with
  | ident s => exact tracks_advance hp hq (by grind) (.pure s)
  | _ => exact tracks_failExpecting label p q

theorem tracks_expectEnd (p q : Parser) : TracksAt p q expectEnd expectEnd :=
  tracks_peek fun _ _ _ => .of_error rfl rfl

theorem tracks_parseUnsignedInt (p q : Parser) :
    TracksAt p q parseUnsignedInt parseUnsignedInt := by
  refine tracks_peek fun t hp hq => ?_
  cases t with
  | integer i =>
      by_cases hi : 0 ≤ i.toInt
      · simp only [if_pos hi]
        exact tracks_advance hp hq (by grind) (.pure _)
      · simp only [if_neg hi]
        exact tracks_failExpecting _ p q
  | _ => exact tracks_failExpecting _ p q

/-- A loop that runs for as long as there are tokens. -/
theorem tracks_tokensLeft {α : Type} {p q : Parser} {f g : Nat → ParseM α}
    (h : TracksAt p q (f (size p)) (g (size q))) :
    TracksAt p q (tokensLeft >>= f) (tokensLeft >>= g) :=
  .congr rfl rfl h

theorem tracks_parsePropertyPath (p q : Parser) :
    TracksAt p q parsePropertyPath parsePropertyPath := by
  refine tracks_tokensLeft (isMany_parsePropertyPathLoop.tracks (by grind) ?_ ?_ _ _ p q
    (Nat.le_refl _) (Nat.le_refl _))
  · intro p key p' hdot hrun
    have hsize := size_tail p (by simp [hdot])
    rw [bind_of_ok (advance_apply p)] at hrun
    have hle := (forward_expectIdent "property key").size_le hrun
    omega
  · exact fun p q hp hq => tracks_advance hp hq (by grind) (tracks_expectIdent _ _ _)

section TrackExpressions

variable {expr expr' : ParseM Expr} {m m' : Nat} (hexpr : Reads expr (ExprPhrase .or))
  (hexpr' : Reads expr' (ExprPhrase .or))
  (htrack : ∀ p q : Parser, size p ≤ m → size q ≤ m' → TracksAt p q expr expr')

include hexpr htrack in
theorem tracks_parsePrimary {p q : Parser} (hp : size p ≤ m + 1) (hq : size q ≤ m' + 1) :
    TracksAt p q (parsePrimary expr) (parsePrimary expr') := by
  refine tracks_peek fun t hnp hnq => ?_
  have hforward := hexpr.forward
  cases t
  case lParen =>
    have hsize := size_tail p (by simp [hnp])
    have hsize' := size_tail q (by simp [hnq])
    refine tracks_advance hnp hnq (by grind) ?_
    refine .bind hforward (by grind) (htrack _ _ (by omega) (by omega)) fun e p₁ q₁ _ _ => ?_
    exact .bind (by grind) (by grind) (tracks_expect _ _ _ _) fun _ _ _ _ _ => .pure e
  case ident name =>
    refine tracks_advance hnp hnq (by grind) (tracks_peek fun t hnp' hnq' => ?_)
    by_cases hid : name = "id" ∧ some t = some .lParen
    · simp only [if_pos hid]
      refine tracks_advance hnp' hnq' (by grind) ?_
      refine .bind (by grind) (by grind) (tracks_expectIdent _ _ _) fun var _ _ _ _ => ?_
      exact .bind (by grind) (by grind) (tracks_expect _ _ _ _) fun _ _ _ _ _ => .pure _
    · simp only [if_neg hid]
      by_cases hdot : some t = some .dot
      · simp only [if_pos hdot]
        exact .bind (by grind) (by grind) (tracks_parsePropertyPath _ _) fun _ _ _ _ _ => .pure _
      · simp only [if_neg hdot]
        exact .of_error rfl rfl
  case integer => exact tracks_advance hnp hnq (by grind) (.pure _)
  case float => exact tracks_advance hnp hnq (by grind) (.pure _)
  case string => exact tracks_advance hnp hnq (by grind) (.pure _)
  case trueKw => exact tracks_advance hnp hnq (by grind) (.pure _)
  case falseKw => exact tracks_advance hnp hnq (by grind) (.pure _)
  case null => exact tracks_advance hnp hnq (by grind) (.pure _)
  case param => exact tracks_advance hnp hnq (by grind) (.pure _)
  all_goals exact tracks_failExpecting _ p q

include hexpr hexpr' htrack

theorem tracks_parseComparison {p q : Parser} (hp : size p ≤ m + 1) (hq : size q ≤ m' + 1) :
    TracksAt p q (parseComparison expr) (parseComparison expr') := by
  have hforward := (reads_parsePrimary hexpr).forward
  have hforward' := (reads_parsePrimary hexpr').forward
  refine .bind hforward (by grind) (tracks_parsePrimary hexpr htrack hp hq) fun lhs p₁ q₁ hp₁ hq₁ =>
    tracks_peek fun t hnp hnq => ?_
  cases hop : comparisonOp t with
  | none =>
      rw [Option.bind_some, hop]
      exact .pure lhs
  | some op =>
        have hsize := size_tail p₁ (by simp [hnp])
        have hsize' := size_tail q₁ (by simp [hnq])
        have hle := hforward.size_le hp₁
        have hle' := hforward'.size_le hq₁
        rw [Option.bind_some, hop]
        refine tracks_advance hnp hnq (by grind) ?_
        exact .bind hforward (by grind) (tracks_parsePrimary hexpr htrack (by omega) (by omega))
          fun _ _ _ _ _ => .pure _

theorem tracks_parseNot (fuel : Nat) : ∀ {fuel' : Nat} {p q : Parser}, size p ≤ fuel →
    size q ≤ fuel' → size p ≤ m + 1 → size q ≤ m' + 1 →
    TracksAt p q (parseNot expr fuel) (parseNot expr' fuel') := by
  induction fuel with
  | zero => exact fun hp _ _ _ => .of_next_eq_none (next_eq_none_of_size (Nat.le_zero.1 hp))
  | succ fuel ih =>
      intro fuel' p q hp hq hpm hqm
      refine .of_next fun t hnp hnq => ?_
      have hsize := size_tail p (by simp [hnp])
      have hsize' := size_tail q (by simp [hnq])
      obtain _ | fuel' := fuel'
      · omega
      refine tracks_peek fun t hnp hnq => ?_
      by_cases h : some t = some .not
      · simp only [if_pos h]
        have hforward := (reads_parseNot hexpr fuel).forward
        refine tracks_advance hnp hnq (by grind) ?_
        exact .bind hforward (by grind) (ih (by omega) (by omega) (by omega) (by omega))
          fun _ _ _ _ _ => .pure _
      · simp only [if_neg h]
        exact tracks_parseComparison hexpr hexpr' htrack hpm hqm

theorem tracks_parseOr {p q : Parser} (hp : size p ≤ m + 1) (hq : size q ≤ m' + 1) :
    TracksAt p q (parseOr expr) (parseOr expr') := by
  have hnot : ∀ {expr}, Reads expr (ExprPhrase .or) → Forward (do parseNot expr (← tokensLeft)) :=
    fun hexpr => .bind forward_tokensLeft fun n => (reads_parseNot hexpr n).forward
  have hand : ∀ p q : Parser, size p ≤ m + 1 → size q ≤ m' + 1 →
      TracksAt p q (parseAnd expr) (parseAnd expr') := fun p q hp hq =>
    (isChain_parseAnd expr).tracks (isChain_parseAnd expr') (hnot hexpr) (hnot hexpr')
      (fun p q hp hq => tracks_tokensLeft
        (tracks_parseNot hexpr hexpr' htrack _ (Nat.le_refl _) (Nat.le_refl _) hp hq)) hp hq
  exact (isChain_parseOr expr).tracks (isChain_parseOr expr') (reads_parseAnd hexpr).forward
    (reads_parseAnd hexpr').forward hand hp hq

end TrackExpressions

theorem tracks_parseExprFuel (fuel : Nat) : ∀ {fuel' : Nat} {p q : Parser}, size p ≤ fuel →
    size q ≤ fuel' → TracksAt p q (parseExprFuel fuel) (parseExprFuel fuel') := by
  induction fuel with
  | zero => exact fun hp _ => .of_next_eq_none (next_eq_none_of_size (Nat.le_zero.1 hp))
  | succ fuel ih =>
      intro fuel' p q hp hq
      refine .of_next fun t hnp hnq => ?_
      have hsize := size_tail q (by simp [hnq])
      obtain _ | fuel' := fuel'
      · omega
      exact tracks_parseOr (reads_parseExprFuel fuel) (reads_parseExprFuel fuel')
        (fun p q hp hq => ih hp hq) hp hq

theorem tracks_parseExpr (p q : Parser) : TracksAt p q parseExpr parseExpr :=
  tracks_tokensLeft (tracks_parseExprFuel _ (Nat.le_refl _) (Nat.le_refl _))

/-! ## Patterns and statements look no further -/

theorem tracks_parsePropertyMapLoop (fuel : Nat) : ∀ {fuel' : Nat} {p q : Parser}
    {props : BTreeMap String Expr}, size p ≤ fuel → size q ≤ fuel' →
    TracksAt p q (parsePropertyMapLoop fuel props) (parsePropertyMapLoop fuel' props) := by
  induction fuel with
  | zero => exact fun hp _ => .of_next_eq_none (next_eq_none_of_size (Nat.le_zero.1 hp))
  | succ fuel ih =>
      intro fuel' p q props hp hq
      refine .of_next fun t hnp hnq => ?_
      have hsize := size_tail q (by simp [hnq])
      obtain _ | fuel' := fuel'
      · omega
      refine .bind (by grind) (by grind)
        (tracks_expectIdent _ p q) fun key p₁ q₁ hp₁ hq₁ => ?_
      refine .bind (by grind) (by grind) (tracks_expect _ _ p₁ q₁) fun _ p₂ q₂ hp₂ hq₂ => ?_
      refine .bind (by grind) (by grind)
        (tracks_parseExpr p₂ q₂) fun val p₃ q₃ hp₃ hq₃ => tracks_peek fun t hnp hnq => ?_
      cases t
      case comma =>
        have hle₁ := (forward_expectIdent _).size_le hp₁
        have hle₂ := (forward_expect _ _).size_le hp₂
        have hle₃ := forward_parseExpr.size_le hp₃
        have hle₁' := (forward_expectIdent _).size_le hq₁
        have hle₂' := (forward_expect _ _).size_le hq₂
        have hle₃' := forward_parseExpr.size_le hq₃
        have hsize₃ := size_tail p₃ (by simp [hnp])
        have hsize₃' := size_tail q₃ (by simp [hnq])
        exact tracks_advance hnp hnq (by grind) (ih (by omega) (by omega))
      case rBrace => exact tracks_advance hnp hnq (by grind) (.pure _)
      all_goals exact tracks_failExpecting _ p₃ q₃

theorem tracks_parsePropertyMap (p q : Parser) :
    TracksAt p q parsePropertyMap parsePropertyMap := by
  refine .bind (by grind) (by grind) (tracks_expect _ _ p q)
    fun _ p₁ q₁ _ _ => tracks_peek fun t hnp hnq => ?_
  by_cases h : some t = some .rBrace
  · simp only [if_pos h]
    exact tracks_advance hnp hnq (by grind) (.pure _)
  · simp only [if_neg h]
    exact tracks_tokensLeft (tracks_parsePropertyMapLoop _ (Nat.le_refl _) (Nat.le_refl _))

theorem tracks_parseLabelAndProperties (label : String) (p q : Parser) :
    TracksAt p q (parseLabelAndProperties label) (parseLabelAndProperties label) := by
  rw [parseLabelAndProperties_eq]
  refine .bind (by grind) (by grind) (.optional fun hp hq => ?_) fun l p₁ q₁ _ _ => ?_
  · refine tracks_advance hp hq (by grind) ?_
    exact .bind (by grind) (by grind) (tracks_expectIdent _ _ _) fun _ _ _ _ _ => .pure _
  · exact .bind (by grind) (by grind) (.optional fun _ _ => tracks_parsePropertyMap _ _)
      fun _ _ _ _ _ => .pure _

theorem tracks_parseNodePattern (p q : Parser) :
    TracksAt p q parseNodePattern parseNodePattern := by
  refine .bind (by grind) (by grind) (tracks_expect _ _ p q)
    fun _ p₁ q₁ _ _ => ?_
  refine .bind (by grind) (by grind) (tracks_expectIdent _ p₁ q₁) fun var p₂ q₂ _ _ => ?_
  refine .bind (by grind) (by grind) (tracks_parseLabelAndProperties _ p₂ q₂) fun _ p₃ q₃ _ _ => ?_
  exact .bind (by grind) (by grind) (tracks_expect _ _ p₃ q₃) fun _ _ _ _ _ => .pure _

theorem tracks_parseEdgePattern (p q : Parser) :
    TracksAt p q parseEdgePattern parseEdgePattern := by
  refine .bind (by grind) (by grind)
    (tracks_expect _ _ p q) fun _ p₁ q₁ _ _ => ?_
  refine .bind (by grind) (by grind) (tracks_expect _ _ p₁ q₁)
    fun _ p₂ q₂ _ _ => ?_
  refine .bind (by grind) (by grind) (tracks_expectIdent _ p₂ q₂) fun var p₃ q₃ _ _ => ?_
  refine .bind (by grind) (by grind) (tracks_parseLabelAndProperties _ p₃ q₃) fun _ p₄ q₄ _ _ => ?_
  refine .bind (by grind) (by grind) (tracks_expect _ _ p₄ q₄) fun _ p₅ q₅ _ _ => ?_
  exact .bind (by grind) (by grind) (tracks_expect _ _ p₅ q₅) fun _ _ _ _ _ => .pure _

/-- A hop has the dash that it begins with. -/
theorem size_lt_of_hop {p p' : Parser} {hop : EdgePattern × NodePattern}
    (h : (do
      let edge ← parseEdgePattern
      let target ← parseNodePattern
      pure (edge, target) : ParseM _) p = .ok hop p') : size p' < size p := by
  have hread := reads_hop p
  unfold ReadsAt at hread
  rw [h] at hread
  obtain ⟨used, hused, hphrase⟩ := hread
  have hsize := hused.size
  have hpos : 0 < used.length := List.length_pos_of_mem (List.mem_of_mem_head? hphrase.head)
  omega

theorem tracks_parsePattern (p q : Parser) : TracksAt p q parsePattern parsePattern := by
  have hchain : ∀ n, Forward (parseChain n) := isMany_parseChain.forward reads_hop.forward
  refine .bind (by grind) (by grind)
    (tracks_parseNodePattern p q) fun start p₁ q₁ _ _ => tracks_tokensLeft ?_
  refine .bind (hchain _) (by grind) ?_ fun chain p₂ q₂ _ _ => ?_
  · refine isMany_parseChain.tracks reads_hop.forward (fun p hop p' _ h => size_lt_of_hop h) ?_ _ _
      p₁ q₁ (Nat.le_refl _) (Nat.le_refl _)
    intro p q _ _
    refine .bind (by grind) (by grind) (tracks_parseEdgePattern p q) fun _ p₁ q₁ _ _ => ?_
    exact .bind (by grind) (by grind) (tracks_parseNodePattern p₁ q₁) fun _ _ _ _ _ => .pure _
  · split
    · exact .pure _
    · exact .pure _

theorem tracks_parsePatternList (p q : Parser) :
    TracksAt p q parsePatternList parsePatternList := by
  have hitem : Forward (do advance; parsePattern) := by grind
  have hloop : ∀ n, Forward (parsePatternListLoop n) := isMany_parsePatternListLoop.forward hitem
  refine .bind (by grind) (by grind)
    (tracks_parsePattern p q) fun pattern p₁ q₁ _ _ => tracks_tokensLeft ?_
  refine .bind (hloop _) (by grind) ?_ fun _ _ _ _ _ => .pure _
  refine isMany_parsePatternListLoop.tracks hitem ?_ ?_ _ _ p₁ q₁ (Nat.le_refl _) (Nat.le_refl _)
  · intro p pattern p' hcomma hrun
    have hsize := size_tail p (by simp [hcomma])
    rw [bind_of_ok (advance_apply p)] at hrun
    have hle := forward_parsePattern.size_le hrun
    omega
  · exact fun p q hp hq => tracks_advance hp hq (by grind) (tracks_parsePattern _ _)

theorem tracks_parseReturnItem (p q : Parser) :
    TracksAt p q parseReturnItem parseReturnItem := by
  rw [parseReturnItem_eq]
  refine .bind (by grind) (by grind) (tracks_expectIdent _ p q)
    fun name p₁ q₁ _ _ => tracks_peek fun t hnp hnq => ?_
  by_cases hcount : name = "count" ∧ some t = some .lParen
  · simp only [if_pos hcount]
    refine tracks_advance hnp hnq (by grind) ?_
    refine .bind (by grind) (by grind) (tracks_expectIdent _ _ _) fun _ p₂ q₂ _ _ => ?_
    exact .bind (by grind) (by grind) (tracks_expect _ _ p₂ q₂) fun _ _ _ _ _ => .pure _
  · simp only [if_neg hcount]
    by_cases hcol : name = "collect" ∧ some t = some .lParen
    · simp only [if_pos hcol]
      refine tracks_advance hnp hnq (by grind) ?_
      refine .bind (by grind) (by grind) (tracks_expectIdent _ _ _) fun var p₂ q₂ _ _ => ?_
      refine .bind (by grind) (by grind) (.optional fun _ _ => ?_) fun _ p₃ q₃ _ _ => ?_
      · exact .bind (by grind) (by grind) (tracks_parsePropertyPath _ _) fun _ _ _ _ _ => .pure _
      · exact .bind (by grind) (by grind) (tracks_expect _ _ p₃ q₃) fun _ _ _ _ _ => .pure _
    · simp only [if_neg hcol]
      by_cases hdot : some t = some .dot
      · simp only [if_pos hdot]
        exact .bind (by grind) (by grind) (tracks_parsePropertyPath _ _) fun _ _ _ _ _ => .pure _
      · simp only [if_neg hdot]
        exact .pure _

theorem tracks_parseReturnItemsLoop (fuel : Nat) : ∀ {fuel' : Nat} {p q : Parser},
    size p ≤ fuel → size q ≤ fuel' →
    TracksAt p q (parseReturnItemsLoop fuel) (parseReturnItemsLoop fuel') := by
  induction fuel with
  | zero => exact fun hp _ => .of_next_eq_none (next_eq_none_of_size (Nat.le_zero.1 hp))
  | succ fuel ih =>
      intro fuel' p q hp hq
      refine .of_next fun t hnp hnq => ?_
      have hsize := size_tail q (by simp [hnq])
      obtain _ | fuel' := fuel'
      · omega
      have hforward := (reads_parseReturnItemsLoop fuel).forward
      refine .bind (by grind) (by grind) (tracks_parseReturnItem p q)
        fun item p₁ q₁ hp₁ hq₁ => tracks_peek fun t hnp hnq => ?_
      by_cases h : some t = some .comma
      · simp only [if_pos h]
        have hle := forward_parseReturnItem.size_le hp₁
        have hle' := forward_parseReturnItem.size_le hq₁
        have hsize₁ := size_tail p₁ (by simp [hnp])
        have hsize₁' := size_tail q₁ (by simp [hnq])
        refine tracks_advance hnp hnq (by grind) ?_
        exact .bind hforward (by grind) (ih (by omega) (by omega)) fun _ _ _ _ _ => .pure _
      · simp only [if_neg h]
        exact .pure _

theorem tracks_parseOrderBy (p q : Parser) : TracksAt p q parseOrderBy parseOrderBy := by
  refine .bind (by grind) (by grind) (tracks_expect _ _ p q) fun _ p₁ q₁ _ _ => ?_
  refine .bind (by grind) (by grind) (tracks_expect _ _ p₁ q₁) fun _ p₂ q₂ _ _ => ?_
  refine .bind (by grind) (by grind) (tracks_parseExpr p₂ q₂) fun e p₃ q₃ _ _ =>
    tracks_peek fun t hnp hnq => ?_
  cases t
  case asc => exact tracks_advance hnp hnq (by grind) (.pure _)
  case desc => exact tracks_advance hnp hnq (by grind) (.pure _)
  all_goals exact .pure _

/-- What comes after the `ORDER BY` clause. -/
theorem forward_returnEnd (patterns : List Pattern) (whereClause : Option Expr)
    (items : List ReturnItem) (order : Option OrderBy) : Forward (optional .limit (do
      advance
      let n ← parseUnsignedInt
      pure (some n)) none >>= fun limit => do
        expectEnd
        pure (Statement.matchReturn patterns whereClause items order limit)) :=
  .bind reads_limitClause.forward fun limit => by grind

theorem tracks_parseReturn (patterns : List Pattern) (whereClause : Option Expr) {p q : Parser}
    (hp : next p = some .returnKw) (hq : next q = some .returnKw) :
    TracksAt p q (parseReturn patterns whereClause) (parseReturn patterns whereClause) := by
  have hend := forward_returnEnd patterns whereClause
  rw [parseReturn_eq]
  refine tracks_advance hp hq (.bind (by grind) fun items => .bind (by grind) (hend items)) ?_
  refine .bind (by grind) (fun items => .bind (by grind) (hend items)) (tracks_tokensLeft
    (tracks_parseReturnItemsLoop _ (Nat.le_refl _) (Nat.le_refl _))) fun items p₁ q₁ _ _ => ?_
  refine .bind (by grind) (hend items) (.optional fun _ _ => ?_) fun order p₂ q₂ _ _ => ?_
  · exact .bind (by grind) (by grind) (tracks_parseOrderBy _ _) fun _ _ _ _ _ => .pure _
  refine .bind reads_limitClause.forward (by grind) (.optional fun hp hq => ?_)
    fun limit p₃ q₃ _ _ => ?_
  · refine tracks_advance hp hq (by grind) ?_
    exact .bind (by grind) (by grind) (tracks_parseUnsignedInt _ _) fun _ _ _ _ _ => .pure _
  exact .bind (by grind) (by grind) (tracks_expectEnd p₃ q₃) fun _ _ _ _ _ => .pure _

theorem tracks_parseDelete (patterns : List Pattern) (whereClause : Option Expr) (p q : Parser) :
    TracksAt p q (parseDelete patterns whereClause) (parseDelete patterns whereClause) := by
  rw [parseDelete_eq]
  refine .bind reads_detachClause.forward (by grind) (.optional fun hp hq => ?_)
    fun detach p₁ q₁ _ _ => ?_
  · exact tracks_advance hp hq (by grind) (.pure _)
  refine .bind (by grind) (by grind) (tracks_expect _ _ p₁ q₁) fun _ p₂ q₂ _ _ => ?_
  refine .bind (by grind) (by grind) (tracks_expectIdent _ p₂ q₂) fun var p₃ q₃ _ _ => ?_
  exact .bind (by grind) (by grind) (tracks_expectEnd p₃ q₃) fun _ _ _ _ _ => .pure _

theorem tracks_parseMatchEnd (patterns : List Pattern) (whereClause : Option Expr)
    (p q : Parser) : TracksAt p q (parseMatchEnd patterns whereClause)
      (parseMatchEnd patterns whereClause) := by
  refine tracks_peek fun t hnp hnq => ?_
  cases t
  case returnKw => exact tracks_parseReturn patterns whereClause hnp hnq
  case delete => exact tracks_parseDelete patterns whereClause p q
  case detach => exact tracks_parseDelete patterns whereClause p q
  all_goals exact tracks_failExpecting _ p q

theorem forward_parseMatchEnd (patterns : List Pattern) (whereClause : Option Expr) :
    Forward (parseMatchEnd patterns whereClause) := by
  have hreturn : Forward (parseReturn patterns whereClause) := by
    rw [parseReturn_eq]
    exact .bind (by grind) fun _ => .bind (by grind) fun items =>
      .bind (by grind) (forward_returnEnd patterns whereClause items)
  have hdelete : Forward (parseDelete patterns whereClause) := by
    rw [parseDelete_eq]
    exact .bind reads_detachClause.forward (by grind)
  unfold parseMatchEnd
  grind

theorem tracks_parseStatement (p q : Parser) : TracksAt p q parseStatement parseStatement := by
  rw [parseStatement_eq]
  refine tracks_peek fun t hnp hnq => ?_
  cases t
  case create =>
    refine tracks_advance hnp hnq (by grind) ?_
    refine .bind (by grind) (by grind) (tracks_parseNodePattern _ _) fun np p₁ q₁ _ _ => ?_
    exact .bind (by grind) (by grind) (tracks_expectEnd p₁ q₁) fun _ _ _ _ _ => .pure _
  case merge =>
    refine tracks_advance hnp hnq (by grind) ?_
    refine .bind (by grind) (by grind) (tracks_parseNodePattern _ _) fun np p₁ q₁ _ _ => ?_
    exact .bind (by grind) (by grind) (tracks_expectEnd p₁ q₁) fun _ _ _ _ _ => .pure _
  case matchKw =>
    have hend := fun patterns : List Pattern =>
      reads_whereClause.forward.bind (forward_parseMatchEnd patterns)
    refine tracks_advance hnp hnq (.bind (by grind) hend) ?_
    refine .bind (by grind) hend (tracks_parsePatternList _ _) fun patterns p₁ q₁ _ _ => ?_
    refine .bind reads_whereClause.forward (forward_parseMatchEnd patterns)
      (.optional fun hp hq => ?_) fun whereClause p₂ q₂ _ _ => ?_
    · refine tracks_advance hp hq (by grind) ?_
      exact .bind (by grind) (by grind) (tracks_parseExpr _ _) fun _ _ _ _ _ => .pure _
    exact tracks_parseMatchEnd patterns whereClause p₂ q₂
  all_goals exact .of_error rfl rfl

end Parser

/-! ## The position of an error -/

/-- The error is about the token at index `i`, or about the end of the tokens. A token is reported
with its own offset. The name of an identifier that is neither called nor followed by a path is
reported with the offset of what comes after it, and with that of the last token at the end. -/
def ParseError.At (err : ParseError) (tokens : List Spanned) (i : Nat) : Prop :=
  match err with
  | .unexpected (.token t) _ offset => tokens[i]? = some ⟨t, offset⟩
  | .unexpected (.name name) _ offset => 0 < i ∧
      tokens[i - 1]?.map Spanned.token = some (.ident name) ∧
      offset = (tokens[i]?.map Spanned.offset).getD ((tokens.getLast?.map Spanned.offset).getD 0)
  | .unexpectedEnd _ => i = tokens.length
  | .unsupported (.token t) => i = 0 ∧ tokens[0]?.map Spanned.token = some t
  | .unsupported (.name _) => False
  | .lex _ => False

/-- The parser on a list of tokens. -/
def Parser.on (tokens : List Spanned) : Parser :=
  ⟨tokens, (tokens.getLast?.map Spanned.offset).getD 0⟩

section Positions

variable {tokens rest : List Spanned} {used : List Token} {p' : Parser} {err : ParseError}

/-- What is left after `used` is what comes after as many tokens. -/
theorem rest_of_consumes : ∀ {used : List Token} {p : Parser}, Consumes p used p' →
    p' = ⟨p.rest.drop used.length, p.last⟩ ∧ used = (p.rest.take used.length).map Spanned.token
  | [], p, h => ⟨consumes_nil.1 h, rfl⟩
  | t :: used, ⟨[], last⟩, h => by cases h.1
  | t :: used, ⟨spanned :: rest, last⟩, h => by
      obtain ⟨hp', hused⟩ := rest_of_consumes h.2
      refine ⟨hp', ?_⟩
      cases h.1
      exact congrArg (spanned.token :: ·) hused

/-- An error that points where the parser stopped is about the token there. -/
theorem ParseError.points.at (h : ParseError.points used err p')
    (hc : Consumes (Parser.on tokens) used p') : err.At tokens used.length := by
  have hsize : p'.rest.length + used.length = tokens.length := hc.size
  obtain ⟨rfl, hused⟩ := rest_of_consumes hc
  have hrest : (tokens.drop used.length).head? = tokens[used.length]? := List.head?_drop
  cases err with
  | unexpected text expected offset =>
      cases text with
      | token t => exact hrest.symm.trans h
      | name name =>
          obtain ⟨hlast, hoffset⟩ := h
          have hpos : 0 < used.length := by
            cases used with
            | nil => cases hlast
            | cons t used => exact Nat.succ_pos _
          refine ⟨hpos, ?_, ?_⟩
          · -- the identifier is the last token that was consumed
            rw [List.getLast?_eq_getElem?, hused, List.getElem?_map, List.length_map,
              List.length_take, List.getElem?_take] at hlast
            have hmin : min used.length tokens.length = used.length := by omega
            rw [show (Parser.on tokens).rest = tokens from rfl, hmin,
              if_pos (Nat.sub_lt hpos Nat.one_pos)] at hlast
            exact hlast
          · rw [← hrest]
            exact hoffset
  | unexpectedEnd expected =>
      have hnil : tokens.drop used.length = [] := h
      rw [show (Parser.on tokens).rest = tokens from rfl, hnil] at hsize
      simpa [ParseError.At] using hsize
  | unsupported text => cases h
  | lex err => cases h

/-- Tokens with other tokens after the first `n` of them. -/
theorem sameTokens_take (more : List Spanned) (n : Nat) : ∀ {tokens : List Spanned} {l l' : Nat},
    n ≤ tokens.length → SameTokens n (⟨tokens, l⟩ : Parser) ⟨tokens.take n ++ more, l'⟩ := by
  induction n with
  | zero => exact fun _ => trivial
  | succ n ih =>
      intro tokens l l' hle
      cases tokens with
      | nil => cases hle
      | cons spanned tokens => exact ⟨rfl, rfl, ih (Nat.le_of_succ_le_succ hle)⟩

/-- What can be continued to a phrase is the beginning of tokens that are accepted. -/
theorem exists_accepted {more : List Token} {s : Statement} {n : Nat}
    (h : StatementPhrase ((tokens.take n).map Spanned.token ++ more) s) :
    ∃ more, parseTokens (tokens.take n ++ more) = .ok s := by
  refine ⟨more.map fun t => ⟨t, 0⟩, parseTokens_of_phrase ?_⟩
  rw [List.map_append, List.map_map]
  simpa [Function.comp_def] using h

/-- The parser fails on a statement that begins with one of the three keywords as its functions do,
and on any other at the first token. -/
theorem parseStatement_error (h : parseTokens tokens = .error err) :
    ∃ used p', Parser.parseStatement (Parser.on tokens) = .error err p' ∧
      Consumes (Parser.on tokens) used p' ∧ err.At tokens used.length ∧
      ∃ more s, StatementPhrase (used ++ more) s := by
  rw [parseTokens] at h
  split at h
  · cases h
  rename_i err' p' hrun
  cases h
  have hcreate : StatementPhrase [.create, .lParen, .ident "n", .rParen] (.create ⟨"n", none, ∅⟩) :=
    .create (.intro "n" (.intro .none .none))
  have hrun' : Parser.parseStatement (Parser.on tokens) = .error err p' := hrun
  by_cases hkeyword : ∃ t, next (Parser.on tokens) = some t ∧
      (t = .create ∨ t = .merge ∨ t = .matchKw)
  · obtain ⟨t, hnext, ht⟩ := hkeyword
    have hread := Parser.reads_parseStatement hnext ht
    unfold ReadsAt at hread
    rw [hrun'] at hread
    obtain ⟨used, hused, hpoints, hmore⟩ := hread
    exact ⟨used, p', hrun', hused, ParseError.points.at hpoints hused, hmore⟩
  · -- the first token is not a keyword that begins a statement
    refine ⟨[], p', hrun', ?_⟩
    rw [Parser.parseStatement_eq, bind_of_ok (Parser.peek_apply _)] at hrun'
    cases tokens with
    | nil =>
        cases hrun'
        exact ⟨rfl, rfl, _, _, hcreate⟩
    | cons spanned rest =>
        obtain ⟨t, offset⟩ := spanned
        cases t
        case create => exact absurd ⟨_, rfl, .inl rfl⟩ hkeyword
        case merge => exact absurd ⟨_, rfl, .inr (.inl rfl)⟩ hkeyword
        case matchKw => exact absurd ⟨_, rfl, .inr (.inr rfl)⟩ hkeyword
        all_goals
          cases hrun'
          exact ⟨rfl, ⟨rfl, rfl⟩, _, _, hcreate⟩

end Positions

/-- The parser fails at the first token that cannot be right. If `parse_tokens` returns an error,
the error is about some place in the tokens: what comes before that place can be continued to a
statement, and if there is a token at that place, what comes before it and the token itself cannot,
whatever follows. -/
theorem error_at_first_bad_token {tokens : List Spanned} {err : ParseError}
    (h : parseTokens tokens = .error err) :
    ∃ i, i ≤ tokens.length ∧ err.At tokens i ∧
      (∃ more s, parseTokens (tokens.take i ++ more) = .ok s) ∧
      (i < tokens.length → ∀ more s, parseTokens (tokens.take (i + 1) ++ more) ≠ .ok s) := by
  obtain ⟨used, p', hrun, hused, hat, more, s, hs⟩ := parseStatement_error h
  have hsize : p'.rest.length + used.length = tokens.length := hused.size
  refine ⟨used.length, by omega, hat, ?_, fun hlt more s hok => ?_⟩
  · rw [(rest_of_consumes hused).2] at hs
    obtain ⟨more, hmore⟩ := exists_accepted hs
    exact ⟨more, s, hmore⟩
  · -- the parser makes the same moves on the other tokens, and fails at the same one
    have hsame : SameTokens (used.length + 1) (Parser.on tokens)
        (Parser.on (tokens.take (used.length + 1) ++ more)) := sameTokens_take more _ hlt
    have htrack := Parser.tracks_parseStatement _ _ used (by rwa [hrun]) hsame
    rw [hrun] at htrack
    obtain ⟨err', q', hq, -⟩ := htrack
    rw [parseTokens] at hok
    rw [Parser.on] at hq
    rw [hq] at hok
    cases hok

/-- The tokens of `MATCH (n) WHERE n RETURN n`. -/
def danglingName : List Spanned :=
  [⟨.matchKw, 0⟩, ⟨.lParen, 6⟩, ⟨.ident "n", 7⟩, ⟨.rParen, 8⟩, ⟨.whereKw, 10⟩, ⟨.ident "n", 16⟩,
    ⟨.returnKw, 18⟩, ⟨.ident "n", 25⟩]

/-- The error names the identifier with the offset of the keyword after it, and the identifier could
have been right. -/
theorem error_after_danglingName :
    parseTokens danglingName =
        .error (.unexpected (.name "n") "function call or property access" 18) ∧
      ∃ i, ParseError.At (.unexpected (.name "n") "function call or property access" 18)
          danglingName i ∧
        (∃ more s, parseTokens (danglingName.take i ++ more) = .ok s) := by
  have herr : parseTokens danglingName =
      .error (.unexpected (.name "n") "function call or property access" 18) := by decide +kernel
  obtain ⟨i, -, hat, hmore, -⟩ := error_at_first_bad_token herr
  exact ⟨herr, i, hat, hmore⟩

end Morceau
