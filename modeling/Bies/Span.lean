import Bies.Text.Bytes

/-!
# Spans

A span is a pair of byte offsets into the source text. Spans come from the scanner or from a tree built
elsewhere, so nothing ties a span to the text it is used with: what does not fit reads as no text.
-/

namespace Bies

/-- The bytes from `start` up to, not including, `stop`. -/
structure Span where
  start : UInt32
  stop : UInt32
deriving DecidableEq, Repr, Inhabited

namespace Span

/-- The span between two offsets, which count modulo 2³². -/
def ofOffsets (start stop : Nat) : Span := ⟨.ofNat start, .ofNat stop⟩

/-- The span that covers nothing and from which spans are joined. -/
def zero : Span := ⟨0, 0⟩

def isEmpty (s : Span) : Bool := s.start == s.stop

/-- The number of bytes, for a span that does not run backwards. -/
def length? (s : Span) : Option Nat :=
  if s.start ≤ s.stop then some (s.stop.toNat - s.start.toNat) else none

/-- The source text under the span; nothing if the span does not fit the source. -/
def text (s : Span) (source : List Char) : String :=
  String.ofList ((sliceBytes? s.start.toNat s.stop.toNat source).getD [])

/-- The least span over both; an empty span adds nothing. -/
def join (s t : Span) : Span :=
  if t.isEmpty then s
  else if s.isEmpty then t
  else ⟨min s.start t.start, max s.stop t.stop⟩

def render (s : Span) : String := s!"{s.start}..{s.stop}"

end Span

/-- A place in a text, both numbers counted from one. -/
structure Position where
  line : Nat
  column : Nat
deriving DecidableEq, Repr

namespace Position

def first : Position := ⟨1, 1⟩

/-- The place behind a character that stands at `p`. -/
def advance (p : Position) (c : Char) : Position :=
  if c = '\n' then ⟨p.line + 1, 1⟩ else ⟨p.line, p.column + 1⟩

/-- The place behind a text that starts at the first line and column. -/
def after (text : List Char) : Position := text.foldl advance first

end Position

/-- Where the span starts; the end of the source if no character starts or ends there. -/
def Span.position (s : Span) (source : List Char) : Position :=
  .after ((takeBytes? s.start.toNat source).getD source)

end Bies
