import Formula.Proofs.Refusal
import Formula.Proofs.Splitting

/-! What the check of a text can say.

A scan refuses a function name that its table does not have, but a text is read with
the same table, and only what the table has is read as a function name
(`Splits.known`). So a check fails in the text, at a character that begins no token, or
in the grammar, and in no other way; and the tokens of a text that passes are accepted
by every scanner over the table (`Scanner.check_fails_by_text_or_grammar`). -/
namespace Formula

/-! ### The errors of a text -/

/-- The function names of a text are functions of the table. -/
theorem Splits.known {table : Dialect} {previous? : Option TokenKind} {cs : List Char} {tokens : List Token}
    (h : Splits table previous? cs tokens) :
    ∀ token ∈ tokens, token.kind = .function → ∃ arity, table.arity token.text = some arity := by
  induction h with
  | done hgap => exact fun token hmem => (nomatch hmem)
  | token hgap hlongest hspells hrest ih =>
    refine List.forall_mem_cons.mpr ⟨fun hkind => ?_, ih⟩
    rw [hkind] at hspells
    cases hspells with
    | function hidentifier hknown => exact Option.isSome_iff_exists.mp hknown

theorem Dialect.exists_lexical_of_tokensFrom {table : Dialect} {previous? : Option TokenKind} {position : Nat}
    {cs : List Char} {error : Error} (h : table.tokensFrom previous? position cs = .error error) :
    ∃ position found, error = .lexical position found := by
  fun_induction table.tokensFrom previous? position cs generalizing error with
  | case1 previous? position => cases h
  | case2 previous? position c cs hblank ih => exact ih h
  | case3 previous? position c cs hblank hread =>
    cases h
    exact ⟨position, c, rfl⟩
  | case4 previous? position c cs hblank lexeme rest hread hlt token =>
    rename_i ih
    exact ih (map_eq_error_iff.mp h)

/-! ### The errors of a scan -/

theorem Error.exists_violation_of_atEnd {error : Error} (h : error.atEnd = true) :
    ∃ cause, error = .violation cause := by
  cases error with
  | violation cause => exact ⟨cause, rfl⟩
  | _ => cases h

/-- A token is refused for a violation of the grammar, or as a function that the table does not have. -/
theorem Session.Refuses.violation_or_unknown {grammar : Grammar} {table : Dialect} {s : Session} {token : Token}
    {error : Error} (h : Refuses grammar table s token error) :
    (∃ cause, error = .violation cause) ∨ token.kind = .function ∧ table.arity token.text = none := by
  cases h with
  | unexpected => exact .inl ⟨_, rfl⟩
  | unknown hkind harity => exact .inr ⟨hkind, harity⟩
  | unopened => exact .inl ⟨_, rfl⟩
  | mismatch => exact .inl ⟨_, rfl⟩

namespace Scanner
variable {table : Dialect} {session : Session} {tokens : List Token}

theorem exists_violation_of_known {error : Error} (h : scanResult table session tokens = .error error)
    (hknown : ∀ token ∈ tokens, token.kind = .function → ∃ arity, table.arity token.text = some arity) :
    ∃ cause, error = .violation cause := by
  rw [scanResult_eq] at h
  cases hend : error.atEnd with
  | true => exact Error.exists_violation_of_atEnd hend
  | false =>
    obtain ⟨j, token, s, -, hat, hrefused⟩ := Session.exists_refused (Session.run_of_not_atEnd h hend)
    rcases (Session.refuses_of_step hrefused).violation_or_unknown with hcause | ⟨hkind, hnone⟩
    · exact hcause
    · obtain ⟨arity, hsome⟩ := hknown token (List.mem_of_getElem? hat) hkind
      rw [hnone] at hsome
      cases hsome

/-! ### The check -/

/-- The result of a check over a table, whatever the scanner has scanned before. -/
def checkResult (table : Dialect) (session : Session) (text : String) : Except Error (List Token) :=
  ((Scanner.mk .arithmetic table session).check text).2.result

theorem checkResult_eq (table : Dialect) (session : Session) (text : String) :
    checkResult table session text =
      (table.tokenize text).bind fun tokens => (scanResult table session tokens).map fun _ => tokens := by
  have htokens : (Scanner.mk .arithmetic table session).tokenize text = table.tokenize text := rfl
  unfold checkResult check
  rw [htokens]
  cases table.tokenize text with
  | error error => rfl
  | ok tokens => rfl

theorem checkResult_of_error {text : String} {error : Error} (h : table.tokenize text = .error error) :
    checkResult table session text = .error error := by
  rw [checkResult_eq, h]
  rfl

theorem checkResult_of_tokens {text : String} (h : table.tokenize text = .ok tokens) :
    checkResult table session text = (scanResult table session tokens).map fun _ => tokens := by
  rw [checkResult_eq, h]
  rfl

/-- A check passes exactly the tokens that the text is read into and that are accepted. -/
theorem checkResult_eq_ok_iff {text : String} :
    checkResult table session text = .ok tokens ↔
      table.tokenize text = .ok tokens ∧ scanResult table session tokens = .ok () := by
  cases htext : table.tokenize text with
  | error error =>
    rw [checkResult_of_error htext]
    exact ⟨fun h => (nomatch h), fun h => (nomatch h.1)⟩
  | ok read =>
    rw [checkResult_of_tokens htext]
    cases hscan : scanResult table session read with
    | error error =>
      refine ⟨fun h => (nomatch h), fun ⟨htokens, haccepted⟩ => ?_⟩
      cases htokens
      rw [hscan] at haccepted
      cases haccepted
    | ok u =>
      refine ⟨fun h => ?_, fun ⟨htokens, _⟩ => htokens⟩
      cases h
      exact ⟨rfl, hscan⟩

/-- **A check fails in the text or in the grammar**, and never for a function that is not known: what a
text calls is in the table that it is read with. If the check succeeds, its tokens are those that the
text is read into, and every scanner over the table accepts them. -/
theorem check_fails_by_text_or_grammar (table : Dialect) (session : Session) (text : String) :
    (∀ tokens, table.tokenize text = .ok tokens → ∀ token ∈ tokens, token.kind = .function →
      ∃ arity, table.arity token.text = some arity) ∧
    ((∃ tokens, checkResult table session text = .ok tokens) ∨
      (∃ position found, checkResult table session text = .error (.lexical position found)) ∨
      ∃ cause, checkResult table session text = .error (.violation cause)) ∧
    (∀ tokens, checkResult table session text = .ok tokens →
      table.tokenize text = .ok tokens ∧ ∀ other, scanResult table other tokens = .ok ()) := by
  have hknown : ∀ tokens, table.tokenize text = .ok tokens → ∀ token ∈ tokens, token.kind = .function →
      ∃ arity, table.arity token.text = some arity := fun tokens htext =>
    (Dialect.splits_of_tokensFrom htext).known
  refine ⟨hknown, ?_⟩
  cases htext : table.tokenize text with
  | error error =>
    obtain ⟨position, found, rfl⟩ := Dialect.exists_lexical_of_tokensFrom htext
    rw [checkResult_of_error htext]
    exact ⟨.inr (.inl ⟨position, found, rfl⟩), fun tokens h => (nomatch h)⟩
  | ok read =>
    rw [checkResult_of_tokens htext]
    cases hscan : scanResult table session read with
    | error error =>
      obtain ⟨cause, rfl⟩ := exists_violation_of_known hscan (hknown read htext)
      exact ⟨.inr (.inr ⟨cause, rfl⟩), fun tokens h => (nomatch h)⟩
    | ok u =>
      refine ⟨.inl ⟨read, rfl⟩, fun tokens h => ?_⟩
      cases h
      exact ⟨rfl, fun other => hscan⟩

/-- `-sin(pi)` is checked by a scanner that a call with two arguments was refused by before. -/
theorem check_fails_by_text_or_grammar_sin :
    (∃ arity, Dialect.default.arity "sin" = some arity) ∧
    Dialect.default.tokenize "-sin(pi)" =
      .ok [.unary "-", .function "sin", .lbracket, .const "pi", .rbracket] ∧
    scanResult .default .initial [.unary "-", .function "sin", .lbracket, .const "pi", .rbracket] = .ok () := by
  have htext : Dialect.default.tokenize "-sin(pi)" =
      .ok [.unary "-", .function "sin", .lbracket, .const "pi", .rbracket] := by decide +kernel
  have hcheck : checkResult .default ⟨.after .rbracket, 5, 0, []⟩ "-sin(pi)" =
      .ok [.unary "-", .function "sin", .lbracket, .const "pi", .rbracket] := by
    rw [checkResult_of_tokens htext]
    rfl
  obtain ⟨hknown, -, hpasses⟩ :=
    check_fails_by_text_or_grammar .default ⟨.after .rbracket, 5, 0, []⟩ "-sin(pi)"
  have hsin := hknown _ htext (.function "sin") (by decide) rfl
  exact ⟨hsin, (hpasses _ hcheck).1, (hpasses _ hcheck).2 .initial⟩

end Scanner

end Formula
