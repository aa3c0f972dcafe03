import Lintel.Text.Utf8

/-!
# Edits

An edit replaces a half-open range of octets of a text by other text. `Edit.make` refuses a range
that starts before the text or ends before it starts, so an `Edit` carries the proof that its
range is one.

`applyEdits` applies a list of edits **from the right to the left**: they are put in order of
their starts and the last is applied first, so the offsets of the others stay meaningful. Edits
with equal starts keep their order in the list. `mapRange` says where a range of the old text
lies in the new one; an offset inside a replaced range goes to the start of the replacement when
it begins a range and to its end when it ends one.
-/

namespace Lintel

/-- Replace the octets from `start` up to `stop` by `replacement`. -/
structure Edit where
  start : Nat
  stop : Nat
  replacement : String
  start_le_stop : start ≤ stop
  deriving DecidableEq, Repr

structure BadRange where
  start : Int
  stop : Int
  deriving DecidableEq, Repr

/-- The words for offsets that are not those of a range. -/
def BadRange.message (r : BadRange) : String :=
  "Invalid edit range [" ++ toString r.start ++ ", " ++ toString r.stop ++ ")"

namespace Edit

def make (start stop : Int) (replacement : String) : Except BadRange Edit :=
  if h : 0 ≤ start ∧ start ≤ stop then
    .ok ⟨start.toNat, stop.toNat, replacement, Int.toNat_le_toNat h.2⟩
  else .error ⟨start, stop⟩

def octets (e : Edit) : Bytes :=
  Utf8.ofString e.replacement

def splice (data : Bytes) (e : Edit) : Bytes :=
  data.take e.start ++ e.octets ++ data.drop e.stop

/-- Edits in order of their starts, equal ones as they come. -/
def ascending (es : List Edit) : List Edit :=
  es.mergeSort fun a b => decide (a.start ≤ b.start)

/-- Edits in the order in which they are applied: the last start first, equal ones as they come. -/
def descending (es : List Edit) : List Edit :=
  es.mergeSort fun a b => decide (b.start ≤ a.start)

end Edit

/-- Apply edits, the last one first. -/
def applyEdits (data : Bytes) (es : List Edit) : Bytes :=
  (Edit.descending es).foldl Edit.splice data

inductive RangeEnd where
  | first
  | last
  deriving DecidableEq, Repr

/-- Where `offset` goes under edits in ascending order, the text having grown by `shift` so far. -/
def mapOffsetFrom (offset : Int) (which : RangeEnd) : Int → List Edit → Int
  | shift, [] => offset + shift
  | shift, e :: es =>
    let grown : Int := e.octets.length
    -- the edit lies in front of the offset, which moves with the growth of the text
    if (e.stop : Int) ≤ offset then
      mapOffsetFrom offset which (shift + (grown - ((e.stop : Int) - e.start))) es
    -- the offset is inside of what is replaced and goes to an end of the replacement
    else if (e.start : Int) < offset then
      e.start + shift + (match which with | .first => 0 | .last => grown)
    -- this edit and all later ones lie behind
    else offset + shift

def mapOffset (offset : Int) (which : RangeEnd) (es : List Edit) : Int :=
  mapOffsetFrom offset which 0 (Edit.ascending es)

def mapRange (start stop : Int) (es : List Edit) : Int × Int :=
  (mapOffset start .first es, mapOffset stop .last es)

end Lintel
