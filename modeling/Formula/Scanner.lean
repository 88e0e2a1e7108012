import Formula.Session
import Formula.Tokenize

/-! The gate for expressions: a grammar and a function table, and the session that the
last scan left behind. Every scan starts with a reset, so nothing that was scanned
before has a part in the answer. -/
namespace Formula

structure Scanner where
  grammar : Grammar
  table : Dialect
  session : Session

namespace Scanner

def ofTable (table : Dialect) : Scanner := ⟨.arithmetic, table, .initial⟩

/-- Drops what the last scan left behind. -/
abbrev reset (scanner : Scanner) : Scanner := { scanner with session := .initial }

/-- Whether the tokens, taken from here on, are an expression, up to the first violation. -/
def verdict (scanner : Scanner) (tokens : List Token) : Except Error Unit :=
  (scanner.session.run scanner.grammar scanner.table tokens).bind Session.finish

/-- The steps of a scan and its outcome. -/
def log (scanner : Scanner) (tokens : List Token) : List Event :=
  scanner.session.transcript scanner.grammar scanner.table tokens ++
    match scanner.verdict tokens with
    | .ok () => [.accepted tokens.length]
    | .error error => [.rejected error]

/-- The scanner after a scan. -/
def after (scanner : Scanner) (tokens : List Token) : Scanner :=
  { scanner with session := scanner.session.reached scanner.grammar scanner.table tokens }

def scan (scanner : Scanner) (tokens : List Token) : Scanner × Report Unit :=
  let ready := scanner.reset
  (ready.after tokens, ⟨ready.verdict tokens, ready.log tokens⟩)

/-- A scan that only tells whether it succeeded. -/
def isValid (scanner : Scanner) (tokens : List Token) : Scanner × Report Bool :=
  let (next, report) := scanner.scan tokens
  (next, ⟨.ok report.result.isOk, report.log⟩)

def tokenize (scanner : Scanner) (text : String) : Except Error (List Token) :=
  scanner.table.tokenize text

/-- Tokenizes a text and scans the tokens, which are the answer. -/
def check (scanner : Scanner) (text : String) : Scanner × Report (List Token) :=
  match scanner.tokenize text with
  | .error error => (scanner, .quiet (.error error))
  | .ok tokens =>
    let (next, report) := scanner.scan tokens
    (next, report.map fun _ => tokens)

end Scanner

end Formula
