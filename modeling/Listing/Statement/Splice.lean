import Listing.Text.Bytes

/-!
# Insertions into a text

An edit inserts a text at a byte position. A list of edits is made from left to right and in one
pass: each position has to lie at or behind the one before and within the text, and not inside a
character. Edits at one position keep their order. Nothing of the text is changed or left out. What
comes of it is a list of pieces that tell apart what was there before and what was inserted.
-/

namespace Listing

open Text

/-- A stretch of a text with insertions. -/
inductive Piece where
  /-- Was there before. -/
  | kept (text : String)
  /-- Was inserted. -/
  | added (text : String)
deriving DecidableEq, Repr

def Piece.text : Piece → String
  | kept text => text
  | added text => text

/-- A text to insert and where. -/
structure Edit where
  position : Nat
  text : String
deriving DecidableEq, Repr

namespace Edit

/-- The pieces of what follows the first `cursor` bytes. -/
def piecesFrom (base : List UInt8) (cursor : Nat) : List Edit → Option (List Piece)
  | [] => do
    let kept ← ofBytes? (base.drop cursor)
    some [.kept kept]
  | e :: es =>
    if cursor ≤ e.position ∧ e.position ≤ base.length then do
      let kept ← ofBytes? ((base.take e.position).drop cursor)
      let rest ← piecesFrom base e.position es
      some (.kept kept :: .added e.text :: rest)
    else none

/-- Edits in the order of their positions; those at one position keep the order they have. -/
def sort (es : List Edit) : List Edit := es.mergeSort fun a b => a.position ≤ b.position

/-- The pieces of a text with all edits made, if they can be made. -/
def splice? (base : List UInt8) (es : List Edit) : Option (List Piece) :=
  piecesFrom base 0 (sort es)

end Edit

end Listing
