import Formula.Scanner

/-! One scanner for many inputs.

A scan that fails leaves a session behind in which a state is entered, brackets are
open and a call may be closed already. No request reads it: a scan begins with a
reset, and a text is split into tokens without a session. What is left of a scanner is
its grammar and its table, which every request passes on. So each of a list of
requests is answered, and logged, as by a scanner that was never used
(`Scanner.history_independent`). -/
namespace Formula

/-- What a scanner can be asked for. -/
inductive Request where
  | scan (tokens : List Token)
  | isValid (tokens : List Token)
  | check (text : String)
  | tokenize (text : String)
deriving DecidableEq, Repr

/-- What it answers, with the lines that it logs. -/
inductive Answer where
  | scanned (report : Report Unit)
  | judged (report : Report Bool)
  | checked (report : Report (List Token))
  | tokenized (report : Report (List Token))

namespace Scanner

def handle (scanner : Scanner) : Request → Scanner × Answer
  | .scan tokens => ((scanner.scan tokens).1, .scanned (scanner.scan tokens).2)
  | .isValid tokens => ((scanner.isValid tokens).1, .judged (scanner.isValid tokens).2)
  | .check text => ((scanner.check text).1, .checked (scanner.check text).2)
  | .tokenize text => (scanner, .tokenized (.quiet (scanner.tokenize text)))

/-- Handles the requests in turn, also those that come after one that failed. -/
def serve (scanner : Scanner) : List Request → Scanner × List Answer
  | [] => (scanner, [])
  | request :: rest =>
    let (next, answer) := scanner.handle request
    let (last, answers) := next.serve rest
    (last, answer :: answers)

/-- The scanners differ in nothing but what the last scan left behind. -/
structure Alike (a b : Scanner) : Prop where
  grammar : a.grammar = b.grammar
  table : a.table = b.table

theorem Alike.refl (scanner : Scanner) : scanner.Alike scanner := ⟨rfl, rfl⟩

theorem Alike.trans {a b c : Scanner} (h : a.Alike b) (h' : b.Alike c) : a.Alike c :=
  ⟨h.grammar.trans h'.grammar, h.table.trans h'.table⟩

/-! ### One request -/

/-- Whatever a scan leaves behind, even of one that failed, it leaves the rest of the scanner alone. -/
theorem scan_alike (scanner : Scanner) (tokens : List Token) : (scanner.scan tokens).1.Alike scanner :=
  ⟨rfl, rfl⟩

theorem check_alike (scanner : Scanner) (text : String) : (scanner.check text).1.Alike scanner := by
  unfold check
  split
  · exact .refl scanner
  · exact scan_alike scanner _

theorem handle_alike (scanner : Scanner) (request : Request) : (scanner.handle request).1.Alike scanner := by
  cases request with
  | scan tokens => exact scan_alike scanner tokens
  | isValid tokens => exact scan_alike scanner tokens
  | check text => exact check_alike scanner text
  | tokenize text => exact .refl scanner

section
variable {a b : Scanner}

/-- A scan begins with a reset, so of the session that it finds it reads nothing. -/
theorem Alike.scan_eq (h : a.Alike b) (tokens : List Token) : a.scan tokens = b.scan tokens := by
  have hreset : a.reset = b.reset := by simp only [reset, h.grammar, h.table]
  unfold scan
  rw [hreset]

theorem Alike.check_eq (h : a.Alike b) (text : String) : (a.check text).2 = (b.check text).2 := by
  have htokens : a.tokenize text = b.tokenize text := by
    unfold tokenize
    rw [h.table]
  unfold check
  rw [htokens]
  cases b.tokenize text with
  | error e => rfl
  | ok tokens => simp only [h.scan_eq tokens]

theorem Alike.answer_eq (h : a.Alike b) (request : Request) : (a.handle request).2 = (b.handle request).2 := by
  cases request with
  | scan tokens => simp only [handle, h.scan_eq tokens]
  | isValid tokens => simp only [handle, isValid, h.scan_eq tokens]
  | check text => simp only [handle, h.check_eq text]
  | tokenize text => simp only [handle, tokenize, h.table]

end

/-! ### Any number of requests -/

theorem serve_alike (scanner : Scanner) (requests : List Request) :
    (scanner.serve requests).1.Alike scanner := by
  induction requests generalizing scanner with
  | nil => exact .refl scanner
  | cons request rest ih => exact (ih (scanner.handle request).1).trans (handle_alike scanner request)

theorem Alike.answers_eq {a b : Scanner} (h : a.Alike b) (requests : List Request) :
    (a.serve requests).2 = requests.map fun request => (b.handle request).2 := by
  induction requests generalizing a with
  | nil => rfl
  | cons request rest ih =>
    show (a.handle request).2 :: ((a.handle request).1.serve rest).2 = _
    rw [h.answer_eq request, ih ((handle_alike a request).trans h), List.map_cons]

/-- **A scanner answers every request as a new one would**, whatever session it has and whatever it
was asked before, and its table and its grammar stay what they are. -/
theorem history_independent (table : Dialect) (session : Session) (requests : List Request) :
    ((Scanner.mk .arithmetic table session).serve requests).2 =
      requests.map (fun request => ((ofTable table).handle request).2) ∧
    ∀ k, let used := ((Scanner.mk .arithmetic table session).serve (requests.take k)).1
      used.table = table ∧ used.grammar = .arithmetic := by
  have hnew : (Scanner.mk .arithmetic table session).Alike (ofTable table) := ⟨rfl, rfl⟩
  refine ⟨hnew.answers_eq requests, fun k => ?_⟩
  have hused := (serve_alike _ (requests.take k)).trans hnew
  exact ⟨hused.table, hused.grammar⟩

/-- What `sin(x,y)` leaves behind: the bracket is closed and the call is gone, and then it is refused. -/
example : ((ofTable .default).scan [⟨.function, "sin"⟩, ⟨.lbracket, "("⟩, ⟨.var, "x"⟩, ⟨.separator, ","⟩,
    ⟨.var, "y"⟩, ⟨.rbracket, ")"⟩]).1.session = ⟨.after .rbracket, 5, 0, []⟩ := rfl

end Scanner

end Formula
