import Mathlib.Data.List.Forall2
import Formula.Proofs.Refusal

/-! The two readings of a minus.

Reading a text decides what a minus is by the token before it, and the grammar decides
by the state which operators may come next. They agree: no state admits an operator that
a minus is not read as (`operatorKind_of_admits`). As one minus decides the context of
the next, two readings of a list are compared from the left, and at the first minus
that differs one is refused (`Session.reading_eq_of_run`). So no reading of a text but
its own is ever accepted (`Scanner.accepted_reading_iff`). -/
namespace Formula

/-- The same token, or a minus that is read as a sign or as a subtraction. -/
def Token.Reread (token other : Token) : Prop :=
  other = token ∨ token.text = "-" ∧ (other = .unary "-" ∨ other = .binary "-")

/-- The state after a token of the kind `previous?`, if there is one. -/
def State.ofPrevious : Option TokenKind → State
  | none => .start
  | some kind => .after kind

/-- Each minus is read by the token before it, and the first token after one of the kind `previous?`. -/
def ReadInContext : Option TokenKind → List Token → Prop
  | _, [] => True
  | previous?, token :: rest =>
    (token.text = "-" → token.kind = operatorKind previous? '-') ∧ ReadInContext (some token.kind) rest

/-! ### The reading of a text -/

theorem Lexeme.eq_minus_of_read? {cs rest : List Char} {lexeme : Lexeme}
    (h : read? cs = some (lexeme, rest)) (htext : lexeme.text = ['-']) : lexeme = .operator '-' := by
  have hcs := text_append_of_read? h
  rw [htext, List.singleton_append] at hcs
  rw [← hcs] at h
  have hminus : read? ('-' :: rest) = some (.operator '-', rest) := rfl
  rw [hminus] at h
  cases h
  rfl

theorem Lexeme.kind_of_minus {table : Dialect} {previous? : Option TokenKind} {cs rest : List Char}
    {lexeme : Lexeme} (h : read? cs = some (lexeme, rest)) (htext : (lexeme.token table previous?).text = "-") :
    (lexeme.token table previous?).kind = operatorKind previous? '-' := by
  have hchars : lexeme.text = ['-'] := String.ofList_inj.mp htext
  rw [eq_minus_of_read? h hchars]
  rfl

theorem Dialect.readInContext_of_tokensFrom {table : Dialect} {previous? : Option TokenKind}
    {position : Nat} {cs : List Char} {tokens : List Token}
    (h : table.tokensFrom previous? position cs = .ok tokens) : ReadInContext previous? tokens := by
  fun_induction table.tokensFrom previous? position cs generalizing tokens with
  | case1 previous? position =>
    cases h
    trivial
  | case2 previous? position c cs hblank ih => exact ih h
  | case3 previous? position c cs hblank hread => cases h
  | case4 previous? position c cs hblank lexeme rest hread hlt token =>
    rename_i ih
    obtain ⟨later, hlater, rfl⟩ := map_eq_ok_iff.mp h
    exact ⟨Lexeme.kind_of_minus hread, ih hlater⟩

/-! ### The reading of the grammar -/

theorem operatorKind_of_admits {previous? : Option TokenKind} {kind : TokenKind}
    (hkind : kind = .unary ∨ kind = .binary) (h : (State.ofPrevious previous?).admits kind = true) :
    kind = operatorKind previous? '-' := by
  cases previous? with
  | none => rcases hkind with rfl | rfl <;> revert h <;> decide
  | some last => cases last <;> rcases hkind with rfl | rfl <;> revert h <;> decide

/-- A minus is taken only as it is read by the token before it. -/
theorem Token.Reread.eq_of_admits {token other : Token} {previous? : Option TokenKind}
    (h : token.Reread other) (hminus : token.text = "-" → token.kind = operatorKind previous? '-')
    (hadmits : (State.ofPrevious previous?).admits other.kind = true) : other = token := by
  rcases h with rfl | ⟨htext, hother⟩
  · rfl
  · have hkind : other.kind = token.kind := by
      rw [hminus htext]
      exact operatorKind_of_admits (hother.imp (congrArg Token.kind) (congrArg Token.kind)) hadmits
    obtain ⟨kind, text⟩ := token
    obtain rfl : text = "-" := htext
    rcases hother with rfl | rfl
    · exact congrArg (Token.mk · "-") hkind
    · exact congrArg (Token.mk · "-") hkind

namespace Session
variable {table : Dialect} {s t : Session}

/-- Of all readings, only the one by context is taken. -/
theorem reading_eq_of_run {previous? : Option TokenKind} {tokens reading : List Token}
    (hcontext : ReadInContext previous? tokens) (hreading : List.Forall₂ Token.Reread tokens reading)
    (hstate : s.state = .ofPrevious previous?) (hrun : s.run .arithmetic table reading = .ok t) :
    reading = tokens := by
  induction hreading generalizing s previous? with
  | nil => rfl
  | @cons token other tokens reading hreread _ ih =>
    obtain ⟨hminus, hrest⟩ := hcontext
    obtain ⟨next, hstep, hlater⟩ := run_cons_eq_ok_iff.mp hrun
    obtain ⟨hadmits, hnext⟩ := admits_of_step hstep
    rw [hstate] at hadmits
    obtain rfl : other = token := hreread.eq_of_admits hminus hadmits
    rw [ih hrest hnext hlater]

end Session

/-- **A reading of the minus signs of a text is accepted only if it is the one by context**: where
that one is refused, so are all others, and where it is accepted there is no second one. -/
theorem Scanner.accepted_reading_iff (table : Dialect) (session : Session) (text : String)
    (tokens reading : List Token) (htext : table.tokenize text = .ok tokens)
    (hreading : List.Forall₂ Token.Reread tokens reading) :
    scanResult table session reading = .ok () ↔
      reading = tokens ∧ scanResult table session tokens = .ok () := by
  constructor
  · intro haccepted
    obtain ⟨s, hrun, -⟩ := Session.exists_run_of_accepted haccepted
    obtain rfl : reading = tokens :=
      Session.reading_eq_of_run (Dialect.readInContext_of_tokensFrom htext) hreading rfl hrun
    exact ⟨rfl, haccepted⟩
  · rintro ⟨rfl, haccepted⟩
    exact haccepted

/-- In `x - -3` the second minus is a sign, and is refused as a subtraction. -/
theorem Scanner.accepted_reading_iff_twice :
    scanResult .default .initial [.var "x", .binary "-", .unary "-", .number "3"] = .ok () ∧
      scanResult .default .initial [.var "x", .binary "-", .binary "-", .number "3"] ≠ .ok () := by
  have htext : Dialect.default.tokenize "x - -3" =
      .ok [.var "x", .binary "-", .unary "-", .number "3"] := by decide +kernel
  have hreading : List.Forall₂ Token.Reread [.var "x", .binary "-", .unary "-", .number "3"]
      [.var "x", .binary "-", .binary "-", .number "3"] :=
    .cons (.inl rfl) (.cons (.inl rfl) (.cons (.inr ⟨rfl, .inr rfl⟩) (.cons (.inl rfl) .nil)))
  refine ⟨rfl, fun haccepted => ?_⟩
  have hsame := ((Scanner.accepted_reading_iff .default .initial "x - -3" _ _ htext hreading).mp haccepted).1
  exact absurd hsame (by decide)

end Formula
