import ConfigLang.Proofs.Ebnf
import ConfigLang.Proofs.Limits
/-!
The readers take all that the grammar has. A phrase is read to its end and no further if it is not
nested too deep, the terms in its tree fit, and no token comes next that would go on with it.
-/

set_option autoImplicit false

namespace ConfigLang.Tree

open Reader

/-- The kinds that go on with a term. -/
def extendsTerm : Kind → Bool
  | .dot | .leftBracket | .leftParen => true
  | _ => false

/-- The kinds that go on with an expression. -/
def extendsExpr (kind : Kind) : Bool :=
  extendsTerm kind || kind.isBinaryOperator

/-- No token of these kinds comes next. -/
def Stops (goesOn : Kind → Bool) (rest : List Token) : Prop :=
  ∀ token ∈ rest.head?, goesOn token.kind = false

theorem Stops.nil {goesOn : Kind → Bool} : Stops goesOn [] := nofun

theorem Stops.cons {goesOn : Kind → Bool} {token : Token} {rest : List Token}
    (stops : goesOn token.kind = false) : Stops goesOn (token :: rest) := by
  intro first same
  cases same
  exact stops

theorem Stops.of_kind {goesOn : Kind → Bool} {token : Token} {rest : List Token} {kind : Kind}
    (is : token.kind = kind) (stops : goesOn kind = false) : Stops goesOn (token :: rest) :=
  .cons (by rw [is, stops])

theorem Stops.newlines {goesOn : Kind → Bool} {lines rest : List Token}
    (newlines : Grammar.Newlines lines) (line : goesOn .newline = false)
    (stops : Stops goesOn rest) : Stops goesOn (lines ++ rest) := by
  cases lines with
  | nil => exact stops
  | cons token lines => exact .of_kind (newlines token List.mem_cons_self) line

theorem Stops.ahead {goesOn : Kind → Bool} {rest : List Token} (stops : Stops goesOn rest)
    (stop : Position) (ends : goesOn .eof = false) :
    goesOn (ahead stop rest).kind = false := by
  cases rest with
  | nil => exact ends
  | cons token rest => exact stops token rfl

theorem Stops.term {rest : List Token} (stops : Stops extendsExpr rest) :
    Stops extendsTerm rest := by
  intro token first
  exact (Bool.or_eq_false_iff.mp (stops token first)).1

theorem pastNewlines_of_kind {token : Token} {rest : List Token} {kind : Kind}
    (is : token.kind = kind) (other : kind ≠ .newline) : PastNewlines (token :: rest) := by
  intro first same
  cases same
  rw [is]
  exact other

theorem pastNewlines_of_opens {token : Token} {rest : List Token}
    (opens : Grammar.opensExpr token.kind = true) : PastNewlines (token :: rest) :=
  pastNewlines_of_kind rfl (Grammar.ne_of_opensExpr opens rfl)

/-- The reader takes every phrase in whose tree the terms fit. -/
def Takes (reader : Reader Tree) (Phrase : Grammar.Phrase) : Prop :=
  ∀ ⦃used tree⦄, Phrase used tree → Fitting tree →
    ∀ stop rest, Stops extendsExpr rest → reader stop (used ++ rest) = .done tree rest

section Expressions

variable {expression : Reader Tree} {Value : Grammar.Phrase} {stop : Position}

/-! ### Elements between brackets -/

theorem tupleItems_end (first : Token) (bound : List Token) {lead rest : List Token}
    {closing : Token} (leading : Grammar.Newlines lead) (closes : closing.kind = .rightBracket) :
    tupleItems expression (first :: bound) stop (lead ++ closing :: rest) =
      .done (Grammar.newLines lead) (closing :: rest) := by
  rw [tupleItems, bind_of_done (newLines_append leading (pastNewlines_of_kind closes (by decide))),
    sees_bind, ahead_cons, closes]
  rfl

/-- An element and the newlines around it. What is read next depends on whether a comma follows. -/
theorem tupleItems_item (takes : Takes expression Value) (opens : Grammar.Opens Value)
    (first : Token) (bound : List Token) {lead value trail rest : List Token} {tree : Tree}
    (leading : Grammar.Newlines lead) (item : Value value tree) (fits : Fitting tree)
    (trailing : Grammar.Newlines trail) (past : PastNewlines rest)
    (stops : Stops extendsExpr rest) :
    tupleItems expression (first :: bound) stop (lead ++ (value ++ (trail ++ rest))) =
      (accept .comma >>= fun more => if more = true then do
          let others ← tupleItems expression bound
          return Grammar.newLines lead ++ tree :: Grammar.newLines trail ++ others
        else return Grammar.newLines lead ++ tree :: Grammar.newLines trail) stop rest := by
  obtain ⟨token, others, rfl, begins⟩ := opens item
  have unclosed : token.kind ≠ .rightBracket := Grammar.ne_of_opensExpr begins rfl
  have read := takes item fits stop (trail ++ rest) (.newlines trailing rfl stops)
  rw [List.cons_append] at read ⊢
  rw [tupleItems, bind_of_done (newLines_append leading (pastNewlines_of_opens begins)),
    sees_bind, ahead_cons, decide_eq_false unclosed, if_neg Bool.false_ne_true, bind_of_done read,
    bind_of_done (newLines_append trailing past)]

theorem tupleItems_comma (takes : Takes expression Value) (opens : Grammar.Opens Value)
    (first : Token) {bound : List Token} {lead value trail others rest : List Token} {tree : Tree}
    {trees : List Tree} {comma : Token} (leading : Grammar.Newlines lead) (item : Value value tree)
    (fits : Fitting tree) (trailing : Grammar.Newlines trail)
    (separates : comma.kind = .comma)
    (follow : tupleItems expression bound stop others = .done trees rest) :
    tupleItems expression (first :: bound) stop (lead ++ (value ++ (trail ++ comma :: others))) =
      .done (Grammar.newLines lead ++ tree :: (Grammar.newLines trail ++ trees)) rest := by
  rw [tupleItems_item takes opens first bound leading item fits trailing
    (pastNewlines_of_kind separates (by decide)) (.of_kind separates rfl),
    bind_of_done (accept_of_kind separates), if_pos rfl, bind_of_done follow, pure_eq,
    List.append_assoc, List.cons_append]

theorem tupleItems_takes (takes : Takes expression Value) (opens : Grammar.Opens Value)
    {used : List Token} {trees : List Tree} (items : Grammar.Items Value used trees)
    (fits : FittingAll trees) {closing : Token} (closes : closing.kind = .rightBracket)
    (rest : List Token) {lead : List Token} (leading : Grammar.Newlines lead) (bound : List Token)
    (enough : (lead ++ (used ++ closing :: rest)).length < bound.length) :
    tupleItems expression bound stop (lead ++ (used ++ closing :: rest)) =
      .done (Grammar.newLines lead ++ trees) (closing :: rest) := by
  induction items generalizing lead bound with
  | last item trailing =>
      obtain ⟨first, bound, rfl⟩ := List.exists_cons_of_length_pos (Nat.zero_lt_of_lt enough)
      simp only [fittingAll_cons] at fits
      rw [List.append_assoc, tupleItems_item takes opens first bound leading item fits.1 trailing
        (pastNewlines_of_kind closes (by decide)) (.of_kind closes rfl),
        bind_of_done (accept_of_ne (by rw [ahead_cons, closes]; decide))]
      rfl
  | comma item trailing separates lines =>
      obtain ⟨first, bound, rfl⟩ := List.exists_cons_of_length_pos (Nat.zero_lt_of_lt enough)
      simp only [fittingAll_cons, fittingAll_append] at fits
      simp only [List.append_assoc, List.cons_append, List.length_append, List.length_cons]
        at enough ⊢
      obtain ⟨second, bound, rfl⟩ : ∃ second others, bound = second :: others :=
        List.exists_cons_of_length_pos (by omega)
      exact tupleItems_comma takes opens first leading item fits.1 trailing separates
        (tupleItems_end second bound lines closes)
  | more item trailing separates lines _ ih =>
      obtain ⟨first, bound, rfl⟩ := List.exists_cons_of_length_pos (Nat.zero_lt_of_lt enough)
      simp only [fittingAll_cons, fittingAll_append] at fits
      simp only [List.append_assoc, List.cons_append, List.length_append, List.length_cons]
        at enough ih ⊢
      exact tupleItems_comma takes opens first leading item fits.1 trailing separates
        (ih fits.2.2.2 lines bound (by omega))

theorem tuple_takes (takes : Takes expression Value) (opens : Grammar.Opens Value)
    {opening closing : Token} {lead used rest : List Token} {trees : List Tree}
    (begins : opening.kind = .leftBracket) (leading : Grammar.Newlines lead)
    (inner : Grammar.Optional (Grammar.Items Value) used trees)
    (fits : FittingAll trees) (closes : closing.kind = .rightBracket) :
    tuple expression stop (opening :: (lead ++ (used ++ closing :: rest))) =
      .done (.node .tuple opening.place.line (Grammar.newLines lead ++ trees)) rest := by
  have items : repeating (tupleItems expression) stop (lead ++ (used ++ closing :: rest)) =
      .done (Grammar.newLines lead ++ trees) (closing :: rest) := by
    unfold repeating
    cases inner with
    | none => simpa using tupleItems_end _ _ leading closes
    | some items => exact tupleItems_takes takes opens items fits closes rest leading _ (by simp)
  rw [tuple, bind_of_done (expect_of_kind begins), bind_of_done items,
    bind_of_done (expect_of_kind closes)]
  rfl

/-! ### Arguments -/

theorem callItems_item (takes : Takes expression Value) (first : Token) (bound : List Token)
    {value trail rest : List Token} {tree : Tree} (item : Value value tree)
    (fits : Fitting tree) (trailing : Grammar.Newlines trail)
    (past : PastNewlines rest) (stops : Stops extendsExpr rest) :
    callItems expression (first :: bound) stop (value ++ (trail ++ rest)) =
      (accept .comma >>= fun more => if more = true then do
          let lead ← newLines
          if ← sees .rightParen then return tree :: Grammar.newLines trail ++ lead
          let others ← callItems expression bound
          return tree :: Grammar.newLines trail ++ lead ++ others
        else return tree :: Grammar.newLines trail) stop rest := by
  have read := takes item fits stop (trail ++ rest) (.newlines trailing rfl stops)
  rw [callItems, bind_of_done read, bind_of_done (newLines_append trailing past)]

theorem callItems_takes (takes : Takes expression Value) (opens : Grammar.Opens Value)
    {used : List Token} {trees : List Tree} (items : Grammar.Items Value used trees)
    (fits : FittingAll trees) {closing : Token} (closes : closing.kind = .rightParen)
    (rest : List Token) (bound : List Token)
    (enough : (used ++ closing :: rest).length < bound.length) :
    callItems expression bound stop (used ++ closing :: rest) = .done trees (closing :: rest) := by
  induction items generalizing bound with
  | last item trailing =>
      obtain ⟨first, bound, rfl⟩ := List.exists_cons_of_length_pos (Nat.zero_lt_of_lt enough)
      simp only [fittingAll_cons] at fits
      rw [List.append_assoc, callItems_item takes first bound item fits.1 trailing
        (pastNewlines_of_kind closes (by decide)) (.of_kind closes rfl),
        bind_of_done (accept_of_ne (by rw [ahead_cons, closes]; decide))]
      rfl
  | comma item trailing separates lines =>
      obtain ⟨first, bound, rfl⟩ := List.exists_cons_of_length_pos (Nat.zero_lt_of_lt enough)
      simp only [fittingAll_cons, fittingAll_append] at fits
      rw [List.append_assoc, List.append_assoc, List.cons_append,
        callItems_item takes first bound item fits.1 trailing
          (pastNewlines_of_kind separates (by decide)) (.of_kind separates rfl),
        bind_of_done (accept_of_kind separates), if_pos rfl,
        bind_of_done (newLines_append lines (pastNewlines_of_kind closes (by decide))),
        sees_bind, ahead_cons, closes]
      rfl
  | @more _ _ _ _ _ trees _ item trailing separates lines follow ih =>
      obtain ⟨first, bound, rfl⟩ := List.exists_cons_of_length_pos (Nat.zero_lt_of_lt enough)
      simp only [fittingAll_cons, fittingAll_append] at fits
      simp only [List.append_assoc, List.cons_append, List.length_append, List.length_cons]
        at enough ih ⊢
      obtain ⟨token, others, rfl, begins⟩ := follow.opens opens
      have unclosed : token.kind ≠ .rightParen := Grammar.ne_of_opensExpr begins rfl
      have more := ih fits.2.2.2 bound (by omega)
      rw [List.cons_append] at more ⊢
      rw [callItems_item takes first bound item fits.1 trailing
          (pastNewlines_of_kind separates (by decide)) (.of_kind separates rfl),
        bind_of_done (accept_of_kind separates), if_pos rfl,
        bind_of_done (newLines_append lines (pastNewlines_of_opens begins)),
        sees_bind, ahead_cons, decide_eq_false unclosed, if_neg Bool.false_ne_true,
        bind_of_done more, pure_eq, List.append_assoc, List.cons_append]

theorem callArguments_takes (takes : Takes expression Value) (opens : Grammar.Opens Value)
    {used rest : List Token} {trees : List Tree} {closing : Token}
    (inner : Grammar.Arguments Value used trees) (fits : FittingAll trees)
    (closes : closing.kind = .rightParen) :
    callArguments expression stop (used ++ closing :: rest) = .done trees (closing :: rest) := by
  cases inner with
  | none =>
      rw [callArguments, List.nil_append, peek_bind, ahead_cons, if_pos closes]
      rfl
  | some items =>
      have line := line_ahead stop (closing :: rest) (items.ne_nil opens)
      have arguments := (fittingAll_cons.mp fits).1.children
      have read : repeating (callItems expression) stop (used ++ closing :: rest) =
          .done _ (closing :: rest) :=
        callItems_takes takes opens items arguments closes rest _ (Nat.lt_succ_self _)
      obtain ⟨token, others, rfl, begins⟩ := items.opens opens
      have unclosed : token.kind ≠ .rightParen := Grammar.ne_of_opensExpr begins rfl
      rw [callArguments, peek_bind, line]
      rw [List.cons_append] at read ⊢
      rw [ahead_cons, if_neg unclosed]
      exact bind_of_done read

theorem call_takes (takes : Takes expression Value) (opens : Grammar.Opens Value)
    {function opening closing : Token} {name : String} {lead used rest : List Token}
    {trees : List Tree} (named : function.kind = .ident name) (begins : opening.kind = .leftParen)
    (leading : Grammar.Newlines lead) (inner : Grammar.Arguments Value used trees)
    (fits : FittingAll trees) (closes : closing.kind = .rightParen) :
    call expression stop (function :: opening :: (lead ++ (used ++ closing :: rest))) =
      .done (.node .call function.place.line
        (Grammar.leaf .identifier function :: (Grammar.newLines lead ++ trees))) rest := by
  have past : PastNewlines (used ++ closing :: rest) := by
    cases inner with
    | none => exact pastNewlines_of_kind closes (by decide)
    | some items =>
        obtain ⟨token, others, rfl, begins⟩ := items.opens opens
        exact pastNewlines_of_opens begins
  rw [call, peek_bind, ahead_cons, bind_of_done (identifier_of_kind named),
    bind_of_done (expect_of_kind begins), bind_of_done (newLines_append leading past),
    bind_of_done (callArguments_takes takes opens inner fits closes),
    bind_of_done (expect_of_kind closes)]
  rfl

/-! ### Objects -/

theorem objectKey_takes {token : Token} {tree : Tree} {rest : List Token}
    (key : Grammar.Key token tree) :
    objectKey token.kind stop (token :: rest) = .done tree rest := by
  cases key with
  | name is =>
      rw [is, objectKey]
      exact identifier_of_kind is
  | string is =>
      rw [is, objectKey]
      exact single_cons ..

theorem objectAssignment_takes {sign : Token} {rest : List Token}
    (assigns : sign.kind = .assign ∨ sign.kind = .colon) :
    objectAssignment stop (sign :: rest) = .done () rest := by
  rw [objectAssignment, peek_bind, ahead_cons, if_pos assigns]
  rfl

theorem objectElement_takes (takes : Takes expression Value) :
    Takes (objectElement expression) (Grammar.Element Value) := by
  intro used tree element fits stop rest stops
  cases element with
  | mk named assigns item =>
      have both := fits.children
      simp only [fittingAll_cons] at both
      rw [List.cons_append, List.cons_append, objectElement, peek_bind, ahead_cons,
        bind_of_done (objectKey_takes named), bind_of_done (objectAssignment_takes assigns),
        bind_of_done (takes item both.2.1 stop rest stops)]
      rfl

theorem element_opens {used : List Token} {tree : Tree}
    (element : Grammar.Element Value used tree) :
    ∃ first rest, used = first :: rest ∧ ¬(first.kind = .rightBrace ∨ first.kind = .eof) ∧
      first.kind ≠ .newline := by
  cases element with
  | mk named =>
      refine ⟨_, _, rfl, ?_⟩
      cases named with
      | name is | string is => simp [is]

theorem objectItems_end (first : Token) (bound : List Token) {closing : Token} {rest : List Token}
    (closes : closing.kind = .rightBrace) :
    objectItems expression (first :: bound) stop (closing :: rest) =
      .done [] (closing :: rest) := by
  rw [objectItems, peek_bind, ahead_cons, if_pos (.inl closes)]
  rfl

/-- An element. Whether others may follow depends on whether it is left behind by a comma or by
newlines. -/
theorem objectItems_item (takes : Takes expression Value) (first : Token) (bound : List Token)
    {element rest : List Token} {tree : Tree} (item : Grammar.Element Value element tree)
    (fits : Fitting tree) (stops : Stops extendsExpr rest) :
    objectItems expression (first :: bound) stop (element ++ rest) =
      (accept .comma >>= fun comma => newLines >>= fun lines =>
        if (comma || !lines.isEmpty) = true then do
          let others ← objectItems expression bound
          return tree :: lines ++ others
        else return tree :: lines) stop rest := by
  have read := objectElement_takes takes item fits stop rest stops
  obtain ⟨token, others, rfl, inside, _⟩ := element_opens item
  rw [List.cons_append] at read ⊢
  rw [objectItems, peek_bind, ahead_cons, if_neg inside, bind_of_done read]

/-- A separator leaves an element behind. -/
theorem separator_takes (stop : Position) {separator rest : List Token} {lines : List Tree}
    (separates : Grammar.Separator separator lines) (past : PastNewlines rest) :
    ∃ comma left, accept .comma stop (separator ++ rest) = .done comma left ∧
      newLines stop left = .done lines rest ∧ (comma || !lines.isEmpty) = true := by
  cases separates with
  | comma separates newlines =>
      exact ⟨true, _, accept_of_kind separates, newLines_append newlines past, rfl⟩
  | lines nonempty newlines =>
      obtain ⟨line, lines, rfl⟩ := List.exists_cons_of_ne_nil nonempty
      have other : (ahead stop (line :: lines ++ rest)).kind ≠ .comma := by
        rw [List.cons_append, ahead_cons, newlines line List.mem_cons_self]
        decide
      exact ⟨false, _, accept_of_ne other, newLines_append newlines past, rfl⟩

theorem separator_stops {separator rest : List Token} {lines : List Tree}
    (separates : Grammar.Separator separator lines) : Stops extendsExpr (separator ++ rest) := by
  cases separates with
  | comma separates => exact .of_kind separates rfl
  | lines nonempty newlines =>
      obtain ⟨line, lines, rfl⟩ := List.exists_cons_of_ne_nil nonempty
      exact .of_kind (newlines line List.mem_cons_self) rfl

theorem separator_ne_nil {separator : List Token} {lines : List Tree}
    (separates : Grammar.Separator separator lines) : 0 < separator.length := by
  cases separates with
  | comma => exact Nat.succ_pos _
  | lines nonempty => exact List.length_pos_iff.mpr nonempty

theorem elements_past {used rest : List Token} {trees : List Tree} {closing : Token}
    (elements : Grammar.Elements Value used trees) (closes : closing.kind = .rightBrace) :
    PastNewlines (used ++ closing :: rest) := by
  cases elements with
  | none => exact pastNewlines_of_kind closes (by decide)
  | last item | more item =>
      obtain ⟨token, others, rfl, _, inline⟩ := element_opens item
      exact pastNewlines_of_kind rfl inline

theorem objectItems_takes (takes : Takes expression Value) {used : List Token} {trees : List Tree}
    (elements : Grammar.Elements Value used trees) (fits : FittingAll trees)
    {closing : Token} (closes : closing.kind = .rightBrace) (rest : List Token)
    (bound : List Token) (enough : (used ++ closing :: rest).length < bound.length) :
    objectItems expression bound stop (used ++ closing :: rest) =
      .done trees (closing :: rest) := by
  induction elements generalizing bound with
  | none =>
      obtain ⟨first, bound, rfl⟩ := List.exists_cons_of_length_pos (Nat.zero_lt_of_lt enough)
      exact objectItems_end first bound closes
  | last item =>
      obtain ⟨first, bound, rfl⟩ := List.exists_cons_of_length_pos (Nat.zero_lt_of_lt enough)
      simp only [fittingAll_cons] at fits
      rw [objectItems_item takes first bound item fits.1 (.of_kind closes rfl),
        bind_of_done (accept_of_ne (by rw [ahead_cons, closes]; decide)),
        bind_of_done (newLines_of_past (pastNewlines_of_kind closes (by decide)))]
      rfl
  | more item separates follow ih =>
      obtain ⟨first, bound, rfl⟩ := List.exists_cons_of_length_pos (Nat.zero_lt_of_lt enough)
      simp only [fittingAll_cons, fittingAll_append] at fits
      simp only [List.append_assoc, List.length_append, List.length_cons] at enough ih ⊢
      have taken := separator_ne_nil separates
      obtain ⟨comma, left, accepted, between, separated⟩ :=
        separator_takes stop separates (elements_past follow closes)
      rw [objectItems_item takes first bound item fits.1 (separator_stops separates),
        bind_of_done accepted, bind_of_done between, if_pos separated,
        bind_of_done (ih fits.2.2 bound (by omega)), pure_eq, List.cons_append]

theorem object_takes (takes : Takes expression Value) {opening closing : Token}
    {lead used rest : List Token} {trees : List Tree} (begins : opening.kind = .leftBrace)
    (leading : Grammar.Newlines lead) (inner : Grammar.Elements Value used trees)
    (fits : FittingAll trees) (closes : closing.kind = .rightBrace) :
    object expression stop (opening :: (lead ++ (used ++ closing :: rest))) =
      .done (.node .object opening.place.line (Grammar.newLines lead ++ trees)) rest := by
  have items : repeating (objectItems expression) stop (used ++ closing :: rest) =
      .done trees (closing :: rest) :=
    objectItems_takes takes inner fits closes rest _ (Nat.lt_succ_self _)
  rw [object, bind_of_done (expect_of_kind begins),
    bind_of_done (newLines_append leading (elements_past inner closes)), bind_of_done items,
    bind_of_done (expect_of_kind closes)]
  rfl

/-! ### Terms -/

theorem alone_of_done {reader : Reader Tree} {tokens rest : List Token} {tree : Tree}
    (read : reader stop tokens = .done tree rest) :
    alone reader stop tokens = .done [tree] rest :=
  alone_done_iff.mpr ⟨tree, read, rfl⟩

theorem grouped_takes (takes : Takes expression Value) (opens : Grammar.Opens Value)
    {opening closing : Token} {lead value trail rest : List Token} {tree : Tree}
    (leading : Grammar.Newlines lead) (item : Value value tree) (fits : Fitting tree)
    (trailing : Grammar.Newlines trail) (closes : closing.kind = .rightParen) :
    grouped expression stop (opening :: (lead ++ (value ++ (trail ++ closing :: rest)))) =
      .done (Grammar.newLines lead ++ tree :: Grammar.newLines trail) rest := by
  have read := takes item fits stop (trail ++ closing :: rest)
    (.newlines trailing rfl (.of_kind closes rfl))
  obtain ⟨token, others, rfl, begins⟩ := opens item
  rw [List.cons_append] at read ⊢
  rw [grouped, advance_bind_cons,
    bind_of_done (newLines_append leading (pastNewlines_of_opens begins)), bind_of_done read,
    bind_of_done (newLines_append trailing (pastNewlines_of_kind closes (by decide))),
    bind_of_done (expect_of_kind closes)]
  rfl

theorem named_takes_name {token : Token} {name : String} {rest : List Token}
    (is : token.kind = .ident name) (stops : Stops (· = .leftParen) rest) :
    named expression stop (token :: rest) = .done [Grammar.leaf .identifier token] rest := by
  have uncalled : (token :: rest).tail.head?.map Token.kind ≠ some .leftParen := by
    intro called
    obtain ⟨second, first, paren⟩ := Option.map_eq_some_iff.mp called
    exact of_decide_eq_false (stops second first) paren
  rw [named, peekSecond_bind, if_neg uncalled]
  exact alone_of_done (identifier_of_kind is)

theorem named_of_call {function opening : Token} {rest left : List Token} {tree : Tree}
    (begins : opening.kind = .leftParen)
    (read : call expression stop (function :: opening :: rest) = .done tree left) :
    named expression stop (function :: opening :: rest) = .done [tree] left := by
  have called : (function :: opening :: rest).tail.head?.map Token.kind = some .leftParen :=
    congrArg some begins
  rw [named, peekSecond_bind, if_pos called]
  exact alone_of_done read

theorem primaryItems_takes (takes : Takes expression Value) (opens : Grammar.Opens Value)
    {used rest : List Token} {children : List Tree} (first : Grammar.Primary Value used children)
    (fits : FittingAll children) (stops : Stops (· = .leftParen) rest) :
    primaryItems expression (ahead stop (used ++ rest)).kind stop (used ++ rest) =
      .done children rest := by
  cases first with
  | int is =>
      rw [List.cons_append, ahead_cons, is]
      exact alone_of_done (single_cons ..)
  | float is =>
      rw [List.cons_append, ahead_cons, is]
      exact alone_of_done (single_cons ..)
  | string is =>
      rw [List.cons_append, ahead_cons, is]
      exact alone_of_done (single_cons ..)
  | name is =>
      rw [List.cons_append, ahead_cons, is]
      exact named_takes_name is stops
  | group begins leading item trailing closes =>
      simp only [fittingAll_cons, fittingAll_append] at fits
      simp only [List.cons_append, List.append_assoc, List.nil_append]
      rw [ahead_cons, begins]
      exact grouped_takes takes opens leading item fits.2.1 trailing closes
  | call named begins leading inner closes =>
      simp only [fittingAll_cons] at fits
      have inner_ := fits.1.children
      simp only [fittingAll_cons, fittingAll_append] at inner_
      simp only [List.cons_append, List.append_assoc, List.nil_append]
      rw [ahead_cons, named]
      exact named_of_call begins
        (call_takes takes opens named begins leading inner inner_.2.2 closes)
  | tuple begins leading inner closes =>
      simp only [fittingAll_cons] at fits
      have inner_ := fits.1.children
      simp only [fittingAll_append] at inner_
      simp only [List.cons_append, List.append_assoc, List.nil_append]
      rw [ahead_cons, begins]
      exact alone_of_done (tuple_takes takes opens begins leading inner inner_.2 closes)
  | object begins leading inner closes =>
      simp only [fittingAll_cons] at fits
      have inner_ := fits.1.children
      simp only [fittingAll_append] at inner_
      simp only [List.cons_append, List.append_assoc, List.nil_append]
      rw [ahead_cons, begins]
      exact alone_of_done (object_takes takes begins leading inner inner_.2 closes)

theorem primary_takes (takes : Takes expression Value) (opens : Grammar.Opens Value)
    {used rest : List Token} {children : List Tree} (first : Grammar.Primary Value used children)
    (fits : FittingAll children) (stops : Stops (· = .leftParen) rest) :
    primary expression stop (used ++ rest) =
      .done (.node .term (Grammar.line used) children) rest := by
  rw [primary, peek_bind, bind_of_done (primaryItems_takes takes opens first fits stops),
    line_ahead _ _ first.ne_nil]
  rfl

/-! ### Projections -/

theorem step_opens {used : List Token} {step : Projection} (taken : Grammar.Step used step) :
    ∃ first rest, used = first :: rest ∧ (first.kind = .dot ∨ first.kind = .leftBracket) := by
  cases taken with
  | attr steps | number steps | attrSplat steps => exact ⟨_, _, rfl, .inl steps⟩
  | int opens | string opens | fullSplat opens => exact ⟨_, _, rfl, .inr opens⟩

theorem projection_dot {dot next : Token} {rest left : List Token} {step : Projection}
    (steps : dot.kind = .dot)
    (read : member dot.place.line next.kind stop (next :: rest) = .done step left) :
    projection dot.kind stop (dot :: next :: rest) = .done step left := by
  rw [projection, if_pos steps, dotProjection, advance_bind_cons, peek_bind, ahead_cons, read]

theorem projection_bracket {opening next closing : Token} {rest : List Token} {step : Projection}
    (opens : opening.kind = .leftBracket)
    (read : subscript opening.place.line next.kind stop (next :: closing :: rest) =
      .done step (closing :: rest)) (closes : closing.kind = .rightBracket) :
    projection opening.kind stop (opening :: next :: closing :: rest) = .done step rest := by
  have other : opening.kind ≠ .dot := by
    rw [opens]
    decide
  rw [projection, if_neg other, bracketProjection, advance_bind_cons, peek_bind, ahead_cons,
    bind_of_done read, bind_of_done (expect_of_kind closes)]
  rfl

theorem projection_takes (stop : Position) {used : List Token} (rest : List Token)
    {step : Projection} (taken : Grammar.Step used step) :
    projection (ahead stop (used ++ rest)).kind stop (used ++ rest) = .done step rest := by
  cases taken with
  | attr steps is =>
      apply projection_dot steps
      rw [is, member, bind_of_done (identifier_of_kind is)]
      · rfl
      · intro same
        cases same
      · intro value same
        cases same
  | number steps is | attrSplat steps is =>
      apply projection_dot steps
      rw [is]
      rfl
  | int opens is closes | string opens is closes | fullSplat opens is closes =>
      apply projection_bracket opens _ closes
      rw [is]
      rfl

theorem fitting_of_steps {line : Nat} {used : List Token} {term last : Tree}
    (steps : Grammar.Steps line used term last) (fits : Fitting last) : Fitting term := by
  induction steps with
  | none => exact fits
  | more taken _ ih => exact ((fitting_project_iff taken).mp (ih fits)).2

/-- Steps are read to the last. A step is refused only where the term that it leads to does not
fit. -/
theorem projections_takes {line : Nat} {used rest : List Token} {term last : Tree}
    (steps : Grammar.Steps line used term last) (fits : Fitting last)
    (stops : Stops extendsTerm rest) {height : Nat} (counted : Counted height term)
    (bound : List Token) (enough : (used ++ rest).length < bound.length) :
    projections line bound height term stop (used ++ rest) = .done last rest := by
  induction steps generalizing height bound with
  | none =>
      obtain ⟨first, bound, rfl⟩ := List.exists_cons_of_length_pos (Nat.zero_lt_of_lt enough)
      have ends := stops.ahead stop rfl
      have done : ¬((ahead stop rest).kind = .dot ∨ (ahead stop rest).kind = .leftBracket) := by
        rintro (dot | bracket)
        · rw [dot] at ends
          cases ends
        · rw [bracket] at ends
          cases ends
      rw [List.nil_append, projections, peek_bind, if_neg done]
      rfl
  | @more used others step term last taken follow ih =>
      obtain ⟨first, bound, rfl⟩ := List.exists_cons_of_length_pos (Nat.zero_lt_of_lt enough)
      have counts : Counted (height + 2) (project line term step) := counted.step taken
      have projected := (fitting_project_iff taken).mp (fitting_of_steps follow fits)
      have within := counts.fits_iff.mp projected.1
      have read := projection_takes stop (others ++ rest) taken
      obtain ⟨token, tokens, rfl, begins⟩ := step_opens taken
      rw [List.append_assoc] at enough ⊢
      rw [List.cons_append] at read
      simp only [List.cons_append, List.length_cons, List.length_append] at enough ih ⊢
      rw [ahead_cons] at read
      rw [projections, peek_bind, ahead_cons, if_pos begins, if_neg (Nat.not_lt.mpr within),
        bind_of_done read]
      exact ih fits counts bound (by omega)

theorem steps_stop {line : Nat} {used rest : List Token} {term last : Tree}
    (steps : Grammar.Steps line used term last) (stops : Stops extendsTerm rest) :
    Stops (· = .leftParen) (used ++ rest) := by
  cases steps with
  | none =>
      intro token first
      apply decide_eq_false
      intro paren
      have ends := stops token first
      rw [paren] at ends
      cases ends
  | more taken =>
      obtain ⟨token, others, rfl, begins⟩ := step_opens taken
      rcases begins with dot | bracket
      · exact .of_kind dot rfl
      · exact .of_kind bracket rfl

theorem term_takes (takes : Takes expression Value) (opens : Grammar.Opens Value)
    (whole : ∀ ⦃used tree⦄, Value used tree → Whole tree)
    {used rest : List Token} {tree : Tree} (term : Grammar.Term Value used tree)
    (fits : Fitting tree) (stops : Stops extendsTerm rest) :
    Tree.term expression stop (used ++ rest) = .done tree rest := by
  obtain ⟨first, steps⟩ := term
  have start := fitting_of_steps steps fits
  rw [List.append_assoc, Tree.term, peek_bind, line_ahead _ _ first.ne_nil,
    bind_of_done (primary_takes takes opens first start.children (steps_stop steps stops))]
  exact projections_takes steps fits stops (primary_counted _ whole first) _ (Nat.lt_succ_self _)

theorem operand_takes (takes : Takes expression Value) (opens : Grammar.Opens Value)
    (whole : ∀ ⦃used tree⦄, Value used tree → Whole tree)
    {used rest : List Token} {tree : Tree} (operand : Grammar.Operand Value used tree)
    (fits : Fitting tree) (stops : Stops extendsTerm rest) :
    Tree.operand expression stop (used ++ rest) = .done tree rest := by
  cases operand with
  | plain term =>
      have read : Tree.term expression stop (used ++ rest) = .done tree rest :=
        term_takes takes opens whole term fits stops
      obtain ⟨token, others, rfl, begins⟩ := term.opens
      have unsigned : ¬(token.kind = .minus ∨ token.kind = .bang) := by
        rintro (minus | bang)
        · rw [minus] at begins
          cases begins
        · rw [bang] at begins
          cases begins
      rw [List.cons_append] at read ⊢
      rw [Tree.operand, peek_bind, ahead_cons, if_neg unsigned, read]
  | signed signs term =>
      have both := fits.children
      simp only [fittingAll_cons] at both
      rw [List.cons_append, Tree.operand, peek_bind, ahead_cons, if_pos signs, advance_bind_cons,
        bind_of_done (term_takes takes opens whole term both.2.1 stops)]
      rfl

/-- An operation takes one operand, or an operand, an operator and all that is on its right. -/
theorem operation_takes (takes : Takes expression Value) (opens : Grammar.Opens Value)
    (whole : ∀ ⦃used tree⦄, Value used tree → Whole tree) :
    Takes (operation expression) (Grammar.Operation Value) := by
  intro used tree operation fits stop rest stops
  cases operation with
  | single operand =>
      have last : (ahead stop rest).kind.isBinaryOperator = false :=
        (Bool.or_eq_false_iff.mp (stops.ahead stop rfl)).2
      rw [Tree.operation, peek_bind,
        bind_of_done (operand_takes takes opens whole operand fits stops.term), peek_bind, last,
        if_neg Bool.false_ne_true]
      rfl
  | @binary left lines right sign leftTree rightTree operand joins newlines item =>
      have both := fits.children
      simp only [fittingAll_cons] at both
      have behind := both.2.1.children
      simp only [fittingAll_cons, fittingAll_append] at behind
      have nonempty := (Grammar.Operand.opens Value).ne_nil operand
      have ends : extendsTerm sign.kind = false := by
        cases kind : sign.kind with
        | dot | leftBracket | leftParen =>
            rw [kind] at joins
            cases joins
        | _ => rfl
      have read := takes item behind.2.2.1 stop rest stops
      have past : PastNewlines (right ++ rest) := by
        obtain ⟨token, others, rfl, begins⟩ := opens item
        exact pastNewlines_of_opens begins
      rw [List.append_assoc, List.cons_append, List.append_assoc, Tree.operation, peek_bind,
        bind_of_done (operand_takes takes opens whole operand both.1 (.cons ends)), peek_bind,
        ahead_cons, if_pos joins, advance_bind_cons, bind_of_done (newLines_append newlines past),
        bind_of_done read, line_ahead _ _ nonempty]
      rfl

end Expressions

theorem expression_takes (depth : Nat) :
    Takes (Tree.expression depth) (Grammar.Expr depth) := by
  induction depth with
  | zero => exact nofun
  | succ depth ih =>
      exact operation_takes ih (Grammar.Expr.opens depth) fun _ _ => expr_whole depth

/-! ### Statements -/

section Statements

variable {expression block : Reader Tree} {Value Nested : Grammar.Phrase} {stop : Position}
  {closing : Option Kind}

theorem attr_takes (takes : Takes expression Value) {key sign : Token} {name : String}
    {value rest : List Token} {tree : Tree} (named : key.kind = .ident name)
    (assigns : sign.kind = .assign) (item : Value value tree) (fits : Fitting tree)
    (stops : Stops extendsExpr rest) :
    attr expression stop (key :: sign :: (value ++ rest)) =
      .done (.node .attr key.place.line [Grammar.leaf .identifier key, tree]) rest := by
  rw [attr, peek_bind, ahead_cons, bind_of_done (identifier_of_kind named),
    bind_of_done (expect_of_kind assigns), bind_of_done (takes item fits stop rest stops)]
  rfl

theorem clause_takes (takes : Takes expression Value) (nested : Takes block Nested)
    (unassigned : Grammar.Unassigned Nested) :
    Takes (clause expression block) (Grammar.Stmt Value Nested) := by
  intro used tree stmt fits stop rest stops
  cases stmt with
  | attr named assigns item =>
      have both := fits.children
      simp only [fittingAll_cons] at both
      rw [List.cons_append, List.cons_append, clause, peekSecond_bind, List.tail_cons,
        List.head?_cons, Option.map_some, if_pos (congrArg some assigns)]
      exact attr_takes takes named assigns item both.2.1 stops
  | block inner =>
      have read := nested inner fits stop rest stops
      obtain ⟨first, second, others, rfl, other⟩ := unassigned inner
      rw [List.cons_append, List.cons_append] at read ⊢
      rw [clause, peekSecond_bind, List.tail_cons, List.head?_cons, Option.map_some,
        if_neg (fun same => other (Option.some.inj same)), read]

/-- A statement may end before these tokens. -/
def Ends (closing : Option Kind) (stop : Position) (rest : List Token) : Prop :=
  EndsStatement closing (ahead stop rest).kind ∧ Stops extendsExpr rest

theorem Ends.newlines {lines rest : List Token} (newlines : Grammar.Newlines lines)
    (ends : Ends closing stop rest) : Ends closing stop (lines ++ rest) := by
  refine ⟨?_, .newlines newlines rfl ends.2⟩
  cases lines with
  | nil => exact ends.1
  | cons line lines => exact .inl (newlines line List.mem_cons_self)

theorem statement_takes (takes : Takes expression Value) (nested : Takes block Nested)
    (unassigned : Grammar.Unassigned Nested) {used rest : List Token} {tree : Tree}
    (stmt : Grammar.Stmt Value Nested used tree) (fits : Fitting tree)
    (ends : Ends closing stop rest) :
    statement expression block closing stop (used ++ rest) = .done tree rest := by
  rw [statement, bind_of_done (clause_takes takes nested unassigned stmt fits stop rest ends.2),
    peek_bind]
  simp only [show _ ∨ _ ∨ _ from ends.1, ↓reduceIte]
  rfl

theorem labels_takes {used rest : List Token} {trees : List Tree} {opening : Token}
    (labels : Grammar.Labels used trees) (opens : opening.kind = .leftBrace) :
    Tree.labels stop (used ++ opening :: rest) = .done trees (opening :: rest) := by
  have unlabelled : label? opening = none := by
    rw [label?, opens]
  induction labels with
  | none => simp [Tree.labels, unlabelled]
  | more key _ ih =>
      have labelled := label?_eq_some_iff.mpr key
      unfold Tree.labels at ih ⊢
      obtain ⟨trees, left⟩ := Reply.done.inj ih
      rw [List.cons_append, List.takeWhile_cons_of_pos (by rw [labelled]; rfl),
        List.dropWhile_cons_of_pos (by rw [labelled]; rfl), left,
        List.filterMap_cons_some labelled, trees]

/-! ### Bodies -/

/-- If anything closes a body, it is a brace. -/
def ClosesBody (closing : Option Kind) : Prop :=
  ∀ kind ∈ closing, kind = .rightBrace

theorem ClosesBody.none : ClosesBody none := nofun

theorem ClosesBody.brace : ClosesBody (some .rightBrace) :=
  fun _ same => (Option.some.inj same).symm

theorem ClosesBody.ne {kind : Kind} (closes : ClosesBody closing) (other : kind ≠ .rightBrace) :
    some kind ≠ closing := by
  intro same
  exact other (closes kind same.symm)

/-- Items that are read one after the other, none of them past the end or the closing token. -/
inductive Itemized (expression block : Reader Tree) (closing : Option Kind) (stop : Position) :
    List Token → List Tree → List Token → Prop
  | none {rest : List Token} : Itemized expression block closing stop rest [] rest
  | more {token : Token} {tokens left rest : List Token} (trees : List Tree) {others : List Tree}
      (inside : token.kind ≠ .eof ∧ some token.kind ≠ closing)
      (read : item expression block closing token.kind stop (token :: tokens) = .done trees left)
      (shorter : left.length < (token :: tokens).length)
      (follow : Itemized expression block closing stop left others rest) :
      Itemized expression block closing stop (token :: tokens) (trees ++ others) rest

theorem itemized_newlines {lines left rest : List Token} {others : List Tree}
    (closes : ClosesBody closing) (newlines : Grammar.Newlines lines) (past : PastNewlines left)
    (follow : Itemized expression block closing stop left others rest) :
    Itemized expression block closing stop (lines ++ left) (Grammar.newLines lines ++ others)
      rest := by
  cases lines with
  | nil => exact follow
  | cons line lines =>
      have newline := newlines line List.mem_cons_self
      refine .more (Grammar.newLines (line :: lines)) ?_ ?_ ?_ follow
      · rw [newline]
        exact ⟨by decide, closes.ne (by decide)⟩
      · rw [item, if_pos newline]
        exact newLines_append newlines past
      · change left.length < (line :: (lines ++ left)).length
        rw [List.length_cons, List.length_append]
        omega

theorem itemized_statement (takes : Takes expression Value) (nested : Takes block Nested)
    (starts : Grammar.Named Nested) (unassigned : Grammar.Unassigned Nested)
    (closes : ClosesBody closing) {used left rest : List Token} {tree : Tree} {others : List Tree}
    (stmt : Grammar.Stmt Value Nested used tree) (fits : Fitting tree)
    (ends : Ends closing stop left)
    (follow : Itemized expression block closing stop left others rest) :
    Itemized expression block closing stop (used ++ left) (tree :: others) rest := by
  have read := statement_takes takes nested unassigned stmt fits ends
  obtain ⟨first, tokens, name, rfl, named⟩ := Grammar.Stmt.named starts stmt
  refine .more [tree] ?_ ?_ ?_ follow
  · rw [named]
    exact ⟨by simp, closes.ne (by simp)⟩
  · rw [item, if_neg (by simp [named])]
    exact alone_of_done read
  · change left.length < (first :: (tokens ++ left)).length
    rw [List.length_cons, List.length_append]
    omega

theorem follow_itemized (takes : Takes expression Value) (nested : Takes block Nested)
    (starts : Grammar.Named Nested) (unassigned : Grammar.Unassigned Nested)
    (closes : ClosesBody closing) {used rest : List Token} {trees : List Tree}
    (follow : Grammar.Follow (Grammar.Stmt Value Nested) used trees)
    (fits : FittingAll trees) (ends : Ends closing stop rest)
    (past : PastNewlines rest) :
    Itemized expression block closing stop (used ++ rest) trees rest ∧
      Ends closing stop (used ++ rest) := by
  induction follow with
  | none newlines =>
      refine ⟨?_, ends.newlines newlines⟩
      simpa using itemized_newlines closes newlines past .none
  | @more lines used others tree trees nonempty newlines stmt _ ih =>
      simp only [fittingAll_cons, fittingAll_append] at fits
      obtain ⟨read, left⟩ := ih fits.2.2
      have item := itemized_statement takes nested starts unassigned closes stmt fits.2.1 left read
      obtain ⟨line, lines, rfl⟩ := List.exists_cons_of_ne_nil nonempty
      obtain ⟨first, tokens, name, rfl, named⟩ := Grammar.Stmt.named starts stmt
      have newline := newlines line List.mem_cons_self
      simp only [List.append_assoc, List.cons_append] at item ⊢
      refine ⟨?_, .inl newline, .of_kind newline rfl⟩
      exact itemized_newlines closes newlines (pastNewlines_of_kind named (by simp)) item

theorem body_itemized (takes : Takes expression Value) (nested : Takes block Nested)
    (starts : Grammar.Named Nested) (unassigned : Grammar.Unassigned Nested)
    (closes : ClosesBody closing) {used rest : List Token} {trees : List Tree}
    (body : Grammar.Body (Grammar.Stmt Value Nested) used trees)
    (fits : FittingAll trees) (ends : Ends closing stop rest)
    (past : PastNewlines rest) :
    Itemized expression block closing stop (used ++ rest) trees rest := by
  cases body with
  | blank newlines =>
      refine (follow_itemized takes nested starts unassigned closes ?_ fits ends past).1
      exact .none newlines
  | @items lead used others tree trees leading stmt follow =>
      simp only [fittingAll_cons, fittingAll_append] at fits
      obtain ⟨read, left⟩ :=
        follow_itemized takes nested starts unassigned closes follow fits.2.2 ends past
      have item := itemized_statement takes nested starts unassigned closes stmt fits.2.1 left read
      obtain ⟨first, tokens, name, rfl, named⟩ := Grammar.Stmt.named starts stmt
      simp only [List.append_assoc, List.cons_append] at item ⊢
      exact itemized_newlines closes leading (pastNewlines_of_kind named (by simp)) item

/-! ### Blocks -/

theorem fittingAll_body_iff {line : Nat} {trees : List Tree} :
    FittingAll (Tree.body line trees) ↔ FittingAll trees := by
  unfold Tree.body
  split
  · have other : (node .body line trees).isProjected = false := isProjected_of_ne nofun
    rw [fittingAll_cons, fitting_of_not_projected other]
    exact and_iff_left fittingAll_nil
  · exact Iff.rfl

theorem blockItems_takes {tokens rest : List Token} {trees : List Tree} {brace : Token}
    (itemized : Itemized expression block (some .rightBrace) stop tokens trees (brace :: rest))
    (closes : brace.kind = .rightBrace) (bound : List Token)
    (enough : tokens.length < bound.length) :
    blockItems expression block bound stop tokens = .done trees (brace :: rest) := by
  generalize last : brace :: rest = left at itemized
  induction itemized generalizing bound with
  | none =>
      obtain ⟨first, bound, rfl⟩ := List.exists_cons_of_length_pos (Nat.zero_lt_of_lt enough)
      subst last
      rw [blockItems, peek_bind, ahead_cons, if_pos (.inl closes)]
      rfl
  | more _ inside read shorter follow ih =>
      obtain ⟨first, bound, rfl⟩ := List.exists_cons_of_length_pos (Nat.zero_lt_of_lt enough)
      simp only [List.length_cons] at enough shorter
      have goes : ¬(_ = Kind.rightBrace ∨ _ = Kind.eof) :=
        not_or.mpr ⟨fun same => inside.2 (congrArg some same), inside.1⟩
      rw [blockItems, peek_bind, ahead_cons, if_neg goes, bind_of_done read,
        bind_of_done (ih bound (by omega) last)]
      rfl

theorem labelledBlock_takes (takes : Takes expression Value) (nested : Takes block Nested)
    (starts : Grammar.Named Nested) (unassigned : Grammar.Unassigned Nested) :
    Takes (labelledBlock expression block) (Grammar.Labelled (Grammar.Stmt Value Nested)) := by
  intro used tree labelled fits stop rest _
  obtain @⟨_, _, closing, _, _, inner, _, trees, named, labels, opens, body, closes⟩ := labelled
  have inside := fits.children
  simp only [fittingAll_cons, fittingAll_append, fittingAll_body_iff] at inside
  have ends : Ends (some .rightBrace) stop (closing :: rest) :=
    ⟨.inr (.inr (congrArg some closes)), .of_kind closes rfl⟩
  have itemized := body_itemized takes nested starts unassigned .brace body inside.2.2 ends
    (pastNewlines_of_kind closes (by decide))
  have items : repeating (blockItems expression block) stop (inner ++ closing :: rest) =
      .done trees (closing :: rest) :=
    blockItems_takes itemized closes _ (Nat.lt_succ_self _)
  simp only [List.cons_append, List.append_assoc, List.nil_append]
  rw [labelledBlock, peek_bind, ahead_cons, bind_of_done (identifier_of_kind named),
    bind_of_done (labels_takes labels opens), bind_of_done (expect_of_kind opens), peek_bind,
    bind_of_done items, bind_of_done (expect_of_kind closes),
    body_ahead (Grammar.Stmt.named starts) body]
  rfl

end Statements

theorem block_takes (depth : Nat) : Takes (Tree.block depth) (Grammar.Block depth) := by
  induction depth with
  | zero => exact nofun
  | succ depth ih =>
      exact labelledBlock_takes (expression_takes depth) ih (Grammar.Block.named depth)
        (Grammar.Block.unassigned depth)

/-! ### Documents -/

/-- The items before the end, with which the tokens or the part that counts ends. -/
theorem items_takes_beforeEnd {stop : Position} {tokens rest : List Token} {trees : List Tree}
    (itemized : Itemized (Tree.expression maxNesting) (Tree.block maxNesting) none stop tokens
      trees rest) (ends : ∀ token ∈ rest.head?, token.kind = .eof) (bound : List Token)
    (enough : tokens.length ≤ bound.length) : items stop bound tokens = ⟨trees, []⟩ := by
  induction itemized generalizing bound with
  | @none rest =>
      cases bound with
      | nil => rfl
      | cons first bound =>
          cases rest with
          | nil => rfl
          | cons token rest => rw [items, if_pos (ends token rfl)]; rfl
  | more _ inside read shorter follow ih =>
      obtain ⟨first, bound, rfl⟩ :=
        List.exists_cons_of_length_pos (Nat.lt_of_lt_of_le (Nat.succ_pos _) enough)
      simp only [List.length_cons] at enough shorter
      simp only [items, inside.1, ↓reduceIte, read, ih ends bound (by omega), Items.add]

theorem items_takes {stop : Position} {tokens : List Token} {trees : List Tree}
    (itemized : Itemized (Tree.expression maxNesting) (Tree.block maxNesting) none stop tokens
      trees []) (bound : List Token) (enough : tokens.length ≤ bound.length) :
    items stop bound tokens = ⟨trees, []⟩ :=
  items_takes_beforeEnd itemized nofun bound enough

/-- The items of a document fit if its tree does. -/
theorem fittingAll_of_document {Item : Grammar.Phrase} {used : List Token} {line : Nat}
    {trees : List Tree} (stated : Grammar.Stated Item) (body : Grammar.Body Item used trees)
    (fits : Fitting (Grammar.document line trees)) : FittingAll trees := by
  cases body with
  | blank => exact fittingAll_newLines _
  | items _ stmt =>
      have inside := fits.children
      rw [if_pos (by simp [stated stmt]), fittingAll_cons] at inside
      exact inside.1.children

/-- A document before the end is read whole if its trees fit. -/
theorem ofTokens_takes_fitting {tokens used rest : List Token} {trees : List Tree}
    (whole : (splitEnd tokens).1 = used ++ rest) (ends : ∀ token ∈ rest.head?, token.kind = .eof)
    (body : Grammar.Document maxNesting used trees) (fits : FittingAll trees) :
    ofTokens tokens =
      .ok (Grammar.document (ahead (splitEnd tokens).2 (splitEnd tokens).1).place.line trees) := by
  have finish : Ends none (splitEnd tokens).2 rest ∧ PastNewlines rest := by
    cases rest with
    | nil => exact ⟨⟨.inr (.inl rfl), .nil⟩, .nil⟩
    | cons token rest =>
        have eof := ends token rfl
        exact ⟨⟨.inr (.inl eof), .of_kind eof rfl⟩, pastNewlines_of_kind eof nofun⟩
  have itemized := body_itemized (expression_takes maxNesting) (block_takes maxNesting)
    (Grammar.Block.named maxNesting) (Grammar.Block.unassigned maxNesting) .none body fits
    finish.1 finish.2
  rw [← whole] at itemized
  unfold ofTokens
  simp only [items_takes_beforeEnd itemized ends _ (Nat.le_refl _), List.isEmpty_nil, ↓reduceIte]
  rfl

theorem splitEnd_append {tokens : List Token} {last : Token} (ends : last.kind = .eof) :
    splitEnd (tokens ++ [last]) = (tokens, last.place) := by
  simp [splitEnd, ends]

/-- A document before a single end token is read whole. -/
theorem ofTokens_takes {tokens : List Token} {last : Token} {trees : List Tree}
    (body : Grammar.Document maxNesting tokens trees) (ends : last.kind = .eof)
    (low : (Grammar.document (Grammar.line (tokens ++ [last])) trees).height ≤ maxTermHeight) :
    ofTokens (tokens ++ [last]) =
      .ok (Grammar.document (Grammar.line (tokens ++ [last])) trees) := by
  have stated := @Grammar.Stmt.stated (Grammar.Expr maxNesting) _ (Grammar.Block.stated maxNesting)
  have fits := fittingAll_of_document stated body (fitting_of_height_le low)
  have whole : (splitEnd (tokens ++ [last])).1 = tokens ++ [] := by
    rw [splitEnd_append ends, List.append_nil]
  have line : (ahead last.place tokens).place.line = Grammar.line (tokens ++ [last]) := by
    cases tokens with
    | nil | cons => rfl
  rw [ofTokens_takes_fitting whole nofun body fits, splitEnd_append ends, line]

/-- The tokens before the only end token are accepted if and only if they are a document. What is
accepted is a document in which at most 128 expressions and blocks are nested, also by the grammar
as it is written down, and each such document is accepted, with its tree, unless the tree is higher
than 512 levels. -/
theorem accepts_exactly_grammar {tokens : List Token} {last : Token}
    (inside : ∀ token ∈ tokens, token.kind ≠ .eof) (ends : last.kind = .eof) :
    (∀ tree, ofTokens (tokens ++ [last]) = .ok tree →
      tokens.map Token.kind ∈ Ebnf.document 128 ∧
        ∃ line trees, Grammar.Document 128 tokens trees ∧ tree = Grammar.document line trees) ∧
    (tokens.map Token.kind ∈ Ebnf.document 128 ↔ ∃ trees, Grammar.Document 128 tokens trees) ∧
    ∀ trees, Grammar.Document 128 tokens trees →
      (Grammar.document (Grammar.line (tokens ++ [last])) trees).height ≤ 512 →
      ofTokens (tokens ++ [last]) =
        .ok (Grammar.document (Grammar.line (tokens ++ [last])) trees) := by
  refine ⟨?_, Ebnf.same_document 128 tokens, fun trees body low => ofTokens_takes body ends low⟩
  intro tree read
  obtain ⟨used, rest, line, trees, whole, stops, body, rfl⟩ := ofTokens_reads read
  rw [splitEnd_append ends] at whole
  cases rest with
  | nil =>
      rw [List.append_nil] at whole
      subst whole
      exact ⟨(Ebnf.same_document 128 _).mpr ⟨trees, body⟩, line, trees, body, rfl⟩
  | cons token rest =>
      have member : token ∈ tokens := by
        change tokens = used ++ token :: rest at whole
        rw [whole]
        exact List.mem_append_right used List.mem_cons_self
      exact absurd (stops token rfl) (inside token member)

/-- The tokens of `a = -[b,` and, on the next line, `][0]`. -/
theorem accepts_exactly_grammar_tuple :
    ofTokens ([⟨.ident "a", ⟨1, 1⟩⟩, ⟨.assign, ⟨1, 3⟩⟩, ⟨.minus, ⟨1, 5⟩⟩, ⟨.leftBracket, ⟨1, 6⟩⟩,
        ⟨.ident "b", ⟨1, 7⟩⟩, ⟨.comma, ⟨1, 8⟩⟩, ⟨.newline, ⟨1, 9⟩⟩, ⟨.rightBracket, ⟨2, 1⟩⟩,
        ⟨.leftBracket, ⟨2, 2⟩⟩, ⟨.int 0, ⟨2, 3⟩⟩, ⟨.rightBracket, ⟨2, 4⟩⟩] ++ [⟨.eof, ⟨2, 5⟩⟩]) =
      .ok (Grammar.document 1
        [.node .attr 1
          [Grammar.leaf .identifier ⟨.ident "a", ⟨1, 1⟩⟩,
            .node .unary 1
              [.leaf ⟨.minus, ⟨1, 5⟩⟩,
                project 1
                  (.node .term 1
                    [.node .tuple 1
                      [.node .term 1 [Grammar.leaf .identifier ⟨.ident "b", ⟨1, 7⟩⟩],
                        .node .newLines 1 [.leaf ⟨.newline, ⟨1, 9⟩⟩]]])
                  ⟨.indexTerm, .node .index 2 [Grammar.leaf .int ⟨.int 0, ⟨2, 3⟩⟩]⟩]]]) := by
  have name : Grammar.Expr 127 [⟨.ident "b", ⟨1, 7⟩⟩]
      (.node .term 1 [Grammar.leaf .identifier ⟨.ident "b", ⟨1, 7⟩⟩]) :=
    .single (.plain (.mk (.name rfl) .none))
  have feed : Grammar.Newlines [⟨.newline, ⟨1, 9⟩⟩] := List.forall_mem_singleton.mpr rfl
  have items : Grammar.Items (Grammar.Expr 127)
      [⟨.ident "b", ⟨1, 7⟩⟩, ⟨.comma, ⟨1, 8⟩⟩, ⟨.newline, ⟨1, 9⟩⟩] _ :=
    .comma name .nil rfl feed
  have tuple : Grammar.Primary (Grammar.Expr 127)
      [⟨.leftBracket, ⟨1, 6⟩⟩, ⟨.ident "b", ⟨1, 7⟩⟩, ⟨.comma, ⟨1, 8⟩⟩, ⟨.newline, ⟨1, 9⟩⟩,
        ⟨.rightBracket, ⟨2, 1⟩⟩] _ :=
    .tuple rfl .nil (.some items) rfl
  have index : Grammar.Step
      [⟨.leftBracket, ⟨2, 2⟩⟩, ⟨.int 0, ⟨2, 3⟩⟩, ⟨.rightBracket, ⟨2, 4⟩⟩] _ := .int rfl rfl rfl
  have term := Grammar.Term.mk tuple (.more index .none)
  have value : Grammar.Expr 128 _ _ :=
    .single (@Grammar.Operand.signed _ ⟨.minus, ⟨1, 5⟩⟩ _ _ (.inl rfl) term)
  have stmt := @Grammar.Stmt.attr _ (Grammar.Block 128) ⟨.ident "a", ⟨1, 1⟩⟩ ⟨.assign, ⟨1, 3⟩⟩
    "a" _ _ rfl rfl value
  refine (accepts_exactly_grammar (by decide) rfl).2.2 _ (.of_item stmt (.none .nil)) ?_
  simp [Grammar.document, Tree.isStatement, Grammar.leaf, project]

end ConfigLang.Tree
