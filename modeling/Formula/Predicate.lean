import Formula.Token

/-! Predicates on token kinds, kept in a store and referred to by id.

A store only grows, and an id is the place at which its predicate was added. A
predicate that joins others reaches only what was added before it: a member is
looked up among the older predicates, and one that is not there matches nothing.
So the test recurses on the store itself, and what it answers for an id is not
touched by what is added later (`accepts_add`). -/
namespace Formula

structure PredicateId where
  index : Nat
deriving DecidableEq, Repr

inductive Predicate where
  /-- Matches one kind. -/
  | terminal (kind : TokenKind)
  /-- Matches what one of the members matches. -/
  | anyOf (members : List PredicateId)
deriving DecidableEq, Repr

structure PredicateStore where
  newestFirst : List Predicate
deriving DecidableEq, Repr

namespace PredicateStore

def empty : PredicateStore := ⟨[]⟩

def size (store : PredicateStore) : Nat := store.newestFirst.length

def isEmpty (store : PredicateStore) : Bool := store.newestFirst.isEmpty

def add (store : PredicateStore) (predicate : Predicate) : PredicateStore × PredicateId :=
  (⟨predicate :: store.newestFirst⟩, ⟨store.size⟩)

def terminal (store : PredicateStore) (kind : TokenKind) : PredicateStore × PredicateId :=
  store.add (.terminal kind)

def anyOf (store : PredicateStore) (members : List PredicateId) : PredicateStore × PredicateId :=
  store.add (.anyOf members)

def getIn (id : PredicateId) : List Predicate → Option Predicate
  | [] => none
  | newest :: older => if id.index = older.length then some newest else getIn id older

def get? (store : PredicateStore) (id : PredicateId) : Option Predicate := getIn id store.newestFirst

def acceptsIn (kind : TokenKind) : List Predicate → PredicateId → Bool
  | [], _ => false
  | newest :: older, id =>
    if id.index = older.length then
      match newest with
      | .terminal expected => expected == kind
      | .anyOf members => members.any fun member => acceptsIn kind older member
    else acceptsIn kind older id

/-- Whether the predicate `id` matches tokens of this kind. -/
def accepts (store : PredicateStore) (id : PredicateId) (kind : TokenKind) : Bool :=
  acceptsIn kind store.newestFirst id

/-- The kinds a predicate matches, in the order of `TokenKind.all`. -/
def kinds (store : PredicateStore) (id : PredicateId) : List TokenKind :=
  TokenKind.all.filter (store.accepts id)

theorem size_add (store : PredicateStore) (predicate : Predicate) :
    (store.add predicate).1.size = store.size + 1 := rfl

theorem get?_add_self (store : PredicateStore) (predicate : Predicate) :
    (store.add predicate).1.get? ⟨store.size⟩ = some predicate := by
  simp [get?, add, getIn, size]

theorem get?_add (store : PredicateStore) (predicate : Predicate) {id : PredicateId}
    (h : id.index < store.size) : (store.add predicate).1.get? id = store.get? id := by
  simp [get?, add, getIn, size] at h ⊢
  omega

theorem accepts_add (store : PredicateStore) (predicate : Predicate) {id : PredicateId}
    (h : id.index < store.size) (kind : TokenKind) :
    (store.add predicate).1.accepts id kind = store.accepts id kind := by
  simp [accepts, add, acceptsIn, size] at h ⊢
  omega

end PredicateStore

end Formula
